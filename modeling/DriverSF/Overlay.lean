import Mathlib.Data.List.Induction
import DriverSF.DevelopmentText
import DriverSF.Objects
import DriverSF.TraceRules

namespace DriverSF

open Objects

variable {D F : Type}

inductive ResourceKind where
  | font
  | sprite
  deriving DecidableEq, Repr

/-- What `D3DXCreateFont` or `D3DXCreateSprite` has created, on a device. -/
structure Resource (D : Type) where
  kind : ResourceKind
  device : D

/-- The globals of `d3d9hooks.cpp` with the objects behind the pointers. A hook is set while it
holds a trampoline. -/
structure Overlay (D : Type) where
  oEndScene : Bool
  oPresent : Bool
  firstCall : Bool
  pFont : Option Nat
  pSprite : Option Nat
  pMyDevice : Option D
  objects : List (Cell (Resource D))

def Overlay.start : Overlay D where
  oEndScene := false
  oPresent := false
  firstCall := true
  pFont := none
  pSprite := none
  pMyDevice := none
  objects := []

/-- A call that fails leaves the pointer as it is. -/
def d3dxCreateFont (succeeds : Bool) (pDevice : D) (o : Overlay D) : Overlay D :=
  if succeeds then
    { o with pFont := some o.objects.length, objects := create o.objects ⟨.font, pDevice⟩ }
  else o

def d3dxCreateSprite (succeeds : Bool) (pDevice : D) (o : Overlay D) : Overlay D :=
  if succeeds then
    { o with pSprite := some o.objects.length, objects := create o.objects ⟨.sprite, pDevice⟩ }
  else o

/-- `end_scene_hook`, where `font` and `sprite` tell which of the two resources can be created, and
`original` is what the game's function returns. -/
def endSceneHook (font sprite : Bool) (original : Int) (pDevice : D) (o : Overlay D) :
    Int × Overlay D :=
  -- Just initialises the sprite once
  let o := if o.firstCall then
      let o := d3dxCreateFont font pDevice o
      let o := d3dxCreateSprite sprite pDevice o
      { o with firstCall := false, pMyDevice := some pDevice }
    else o
  hookCall o.oEndScene (original, o) o

/-- A call of `draw_message`, with the text and the window size from which its position, scale,
colour and message are computed. -/
structure DrawCall (F : Type) where
  font : Option Nat
  fontSprite : Option Nat
  text : DevText F
  width : Nat
  height : Nat

/-- A method can only be called on an object that is there. -/
def Overlay.method (o : Overlay D) (p : Option Nat) : Option (Resource D) := p.bind (live o.objects)

def drawMessage (o : Overlay D) (call : DrawCall F) : Option Bool := do
  -- Begin drawing
  let _ ← o.method call.fontSprite
  -- Draw the text
  let _ ← o.method call.font
  return true

/-- What `GetBackBuffer` returns, and what `GetDesc` returns of the surface. -/
structure BackBuffer where
  hr : Int
  surface : Option (Int × Nat × Nat)

/-- The window size to scale the positioning. -/
def BackBuffer.size (b : BackBuffer) : Nat × Nat :=
  match b.surface with
  | some (hr, width, height) => if 0 ≤ b.hr ∧ 0 ≤ hr then (width, height) else (0, 0)
  | none => (0, 0)

/-- The loop over the texts: the calls that it makes, and whether it comes to its end. -/
def drawTexts (o : Overlay D) (size : Nat × Nat) : List (Int × DevText F) → List (DrawCall F) × Bool
  | [] => ([], true)
  | (_, text) :: texts =>
    let call := ⟨o.pFont, o.pSprite, text, size.1, size.2⟩
    match drawMessage o call with
    | none => ([call], false)
    | some _ =>
      let (calls, done) := drawTexts o size texts
      (call :: calls, done)

/-- How a call of `present_hook` runs; without a result it has crashed. -/
structure PresentRun (F : Type) where
  draws : List (DrawCall F)
  result : Option Int

/-- `present_hook`, with the entries of `dev_texts` in the order of their keys. -/
def presentHook [DecidableEq D] (buffer : BackBuffer) (texts : List (Int × DevText F))
    (original : Int) (pDevice : D) (o : Overlay D) : PresentRun F :=
  let passed := (hookCall o.oPresent (original, ()) ()).1
  if some pDevice = o.pMyDevice then
    -- get window size to scale the positioning
    let (draws, done) := drawTexts o buffer.size texts
    ⟨draws, if done then some passed else none⟩
  else ⟨[], some passed⟩

/-- `install_hooks`. Without the dummy device it releases a pointer that was never set; `endScene`
and `present` tell which hooks could be created. -/
def installHooks (device endScene present : Bool) (o : Overlay D) : Option (Overlay D) :=
  if device then some { o with oEndScene := endScene, oPresent := present } else none

def uninstallHooks (o : Overlay D) : Overlay D :=
  let o := { o with oEndScene := false, oPresent := false }
  let o := match o.pFont with
    | some p => { o with pFont := none, objects := release o.objects p }
    | none => o
  match o.pSprite with
  | some p => { o with pSprite := none, objects := release o.objects p }
  | none => o

inductive OverlayEvent (D F : Type) where
  | installHooks (device endScene present : Bool)
  | endSceneHook (font sprite : Bool) (original : Int) (pDevice : D)
  | presentHook (buffer : BackBuffer) (texts : List (Int × DevText F)) (original : Int) (pDevice : D)
  | uninstallHooks

/-- Nothing happens after a crash. -/
def overlayStep [DecidableEq D] (o : Overlay D) : OverlayEvent D F → Option (Overlay D)
  | .installHooks device endScene present => installHooks device endScene present o
  | .endSceneHook font sprite original pDevice =>
    some (endSceneHook font sprite original pDevice o).2
  | .presentHook buffer texts original pDevice =>
    (presentHook buffer texts original pDevice o).result.map fun _ => o
  | .uninstallHooks => some (uninstallHooks o)

/-- Both pointers are not null, and the objects there were created on the device and have not been
released. -/
structure DrawCall.Sound (o : Overlay D) (pDevice : D) (call : DrawCall F) : Prop where
  font : ∃ p, call.font = some p ∧ live o.objects p = some ⟨.font, pDevice⟩
  fontSprite : ∃ p, call.fontSprite = some p ∧ live o.objects p = some ⟨.sprite, pDevice⟩

def DrawsSound [DecidableEq D] (o : Overlay D) : OverlayEvent D F → Prop
  | .presentHook buffer texts original pDevice =>
    ∀ call ∈ (presentHook buffer texts original pDevice o).draws, call.Sound o pDevice
  | _ => True

def OverlayEvent.isEndScene : OverlayEvent D F → Bool
  | .endSceneHook _ _ _ _ => true
  | _ => false

/-- The events from the first call of `end_scene_hook` on. -/
def fromFirstScene (events : List (OverlayEvent D F)) : List (OverlayEvent D F) :=
  events.dropWhile fun e => !e.isEndScene

/-- If the first scene was on the device, then it has created both resources, and they have not
been uninstalled since. -/
def SceneLasts (pDevice : D) (before : List (OverlayEvent D F)) : Prop :=
  ∀ font sprite original rest,
    fromFirstScene before = .endSceneHook font sprite original pDevice :: rest →
    font = true ∧ sprite = true ∧ .uninstallHooks ∉ rest

/-- The first scene lasts whenever texts are presented, unless the installation has crashed. -/
def FirstSceneLasts (events : List (OverlayEvent D F)) : Prop :=
  ∀ before buffer entry texts original pDevice after,
    events = before ++ .presentHook buffer (entry :: texts) original pDevice :: after →
    (∀ endScene present, .installHooks false endScene present ∉ before) →
    SceneLasts pDevice before

/-- The pointers are to live objects on the device, and to all live objects that there are. -/
structure Overlay.Holds (o : Overlay D) (pDevice : D) : Prop where
  font : ∀ p, o.pFont = some p → live o.objects p = some ⟨.font, pDevice⟩
  sprite : ∀ p, o.pSprite = some p → live o.objects p = some ⟨.sprite, pDevice⟩
  owned : ∀ p r, live o.objects p = some r → o.pFont = some p ∨ o.pSprite = some p

theorem Overlay.Holds.createFont {o : Overlay D} {pDevice : D} (h : o.Holds pDevice)
    (unset : o.pFont = none) (succeeds : Bool) :
    (d3dxCreateFont succeeds pDevice o).Holds pDevice := by
  unfold d3dxCreateFont
  split
  next =>
    refine ⟨?_, ?_, ?_⟩
    · intro p hp
      cases Option.some.inj hp
      exact live_create_self _ _
    · intro p hp
      exact live_create_of_live (h.sprite p hp) _
    · intro p r hr
      rcases live_create_cases hr with rfl | old
      · exact Or.inl rfl
      · exact (h.owned p r old).elim (fun hp => by rw [unset] at hp; cases hp) Or.inr
  next => exact h

theorem Overlay.Holds.createSprite {o : Overlay D} {pDevice : D} (h : o.Holds pDevice)
    (unset : o.pSprite = none) (succeeds : Bool) :
    (d3dxCreateSprite succeeds pDevice o).Holds pDevice := by
  unfold d3dxCreateSprite
  split
  next =>
    refine ⟨?_, ?_, ?_⟩
    · intro p hp
      exact live_create_of_live (h.font p hp) _
    · intro p hp
      cases Option.some.inj hp
      exact live_create_self _ _
    · intro p r hr
      rcases live_create_cases hr with rfl | old
      · exact Or.inr rfl
      · exact (h.owned p r old).elim Or.inl fun hp => by rw [unset] at hp; cases hp
  next => exact h

/-- What uninstalling does: each pointer that is set is released and becomes null. -/
theorem uninstallHooks_eq (o : Overlay D) :
    uninstallHooks o =
      { o with
        oEndScene := false
        oPresent := false
        pFont := none
        pSprite := none
        objects := releaseSet (releaseSet o.objects o.pFont) o.pSprite } := by
  obtain ⟨oEndScene, oPresent, firstCall, pFont, pSprite, pMyDevice, objects⟩ := o
  cases pFont <;> cases pSprite <;> rfl

/-- Uninstalling releases everything that has been created. -/
theorem uninstallHooks_cleared {o : Overlay D} {pDevice : D} (h : o.Holds pDevice) (q : Nat)
    (r : Resource D) : live (uninstallHooks o).objects q ≠ some r := by
  intro left
  rw [uninstallHooks_eq] at left
  obtain ⟨otherSprite, left⟩ := live_releaseSet_cases left
  obtain ⟨otherFont, old⟩ := live_releaseSet_cases left
  exact (h.owned q r old).elim otherFont otherSprite

theorem hookCall_snd {α : Type} (installed : Bool) (original : Int) (a : α) :
    (hookCall installed (original, a) a).2 = a := by
  cases installed <;> rfl

theorem endSceneHook_snd (font sprite : Bool) (original : Int) (pDevice : D) (o : Overlay D) :
    (endSceneHook font sprite original pDevice o).2 =
      if o.firstCall then
        { d3dxCreateSprite sprite pDevice (d3dxCreateFont font pDevice o) with
          firstCall := false
          pMyDevice := some pDevice }
      else o := by
  unfold endSceneHook
  exact hookCall_snd _ _ _

/-- The state after some events, of which only those from the first scene on matter. -/
inductive Overlay.Reflects (o : Overlay D) : List (OverlayEvent D F) → Prop
  | unused (firstCall : o.firstCall = true) (pFont : o.pFont = none) (pSprite : o.pSprite = none)
    (pMyDevice : o.pMyDevice = none) (nothing : ∀ p r, live o.objects p ≠ some r) : Reflects o []
  | used {font sprite : Bool} {original : Int} {pDevice : D} {rest : List (OverlayEvent D F)}
    (firstCall : o.firstCall = false) (pMyDevice : o.pMyDevice = some pDevice)
    (holds : o.Holds pDevice)
    (pFont : o.pFont.isSome = true ↔ font = true ∧ .uninstallHooks ∉ rest)
    (pSprite : o.pSprite.isSome = true ↔ sprite = true ∧ .uninstallHooks ∉ rest) :
    Reflects o (.endSceneHook font sprite original pDevice :: rest)

theorem fromFirstScene_nil_append {before : List (OverlayEvent D F)}
    (h : fromFirstScene before = []) (e : OverlayEvent D F) :
    fromFirstScene (before ++ [e]) = if e.isEndScene then [e] else [] := by
  unfold fromFirstScene at h ⊢
  rw [List.dropWhile_append, h]
  cases e <;> rfl

theorem fromFirstScene_cons_append {before rest : List (OverlayEvent D F)}
    {first : OverlayEvent D F} (h : fromFirstScene before = first :: rest)
    (e : OverlayEvent D F) : fromFirstScene (before ++ [e]) = first :: (rest ++ [e]) := by
  unfold fromFirstScene at h ⊢
  rw [List.dropWhile_append, h]
  rfl

/-- Without any object the pointers are as good on one device as on another. -/
theorem Overlay.holds_of_nothing {o : Overlay D} (pFont : o.pFont = none)
    (pSprite : o.pSprite = none) (nothing : ∀ p r, live o.objects p ≠ some r) (pDevice : D) :
    o.Holds pDevice where
  font p hp := by rw [pFont] at hp; cases hp
  sprite p hp := by rw [pSprite] at hp; cases hp
  owned p r hr := absurd hr (nothing p r)

theorem reflects_firstScene {o : Overlay D} (pFont : o.pFont = none) (pSprite : o.pSprite = none)
    (nothing : ∀ p r, live o.objects p ≠ some r) (font sprite : Bool) (original : Int)
    (pDevice : D) :
    Overlay.Reflects
      { d3dxCreateSprite sprite pDevice (d3dxCreateFont font pDevice o) with
        firstCall := false
        pMyDevice := some pDevice }
      [(.endSceneHook font sprite original pDevice : OverlayEvent D F)] := by
  have unset : (d3dxCreateFont font pDevice o).pSprite = none := by
    unfold d3dxCreateFont
    split <;> exact pSprite
  have empty := Overlay.holds_of_nothing pFont pSprite nothing pDevice
  have holds := (empty.createFont pFont font).createSprite unset sprite
  refine .used rfl rfl ⟨holds.font, holds.sprite, holds.owned⟩ ?_ ?_
  · cases font <;> cases sprite <;> simp [d3dxCreateFont, d3dxCreateSprite, pFont]
  · cases font <;> cases sprite <;> simp [d3dxCreateFont, d3dxCreateSprite, pSprite]

/-- All other events leave the pointers as they are. -/
theorem Overlay.Reflects.later {o : Overlay D} {first e : OverlayEvent D F}
    {rest : List (OverlayEvent D F)} (h : o.Reflects (first :: rest)) (other : e ≠ .uninstallHooks)
    (endScene present : Bool) :
    Overlay.Reflects { o with oEndScene := endScene, oPresent := present }
      (first :: (rest ++ [e])) := by
  have since : .uninstallHooks ∉ rest ++ [e] ↔ .uninstallHooks ∉ rest := by
    simp [Ne.symm other]
  cases h with
  | used firstCall pMyDevice holds pFont pSprite =>
    rw [← since] at pFont pSprite
    exact .used firstCall pMyDevice ⟨holds.font, holds.sprite, holds.owned⟩ pFont pSprite

theorem Overlay.Reflects.uninstall {o : Overlay D} {first : OverlayEvent D F}
    {rest : List (OverlayEvent D F)} (h : o.Reflects (first :: rest)) :
    (uninstallHooks o).Reflects (first :: (rest ++ [.uninstallHooks])) := by
  cases h with
  | used firstCall pMyDevice holds pFont pSprite =>
    have nothing := uninstallHooks_cleared holds
    rw [uninstallHooks_eq] at nothing ⊢
    refine .used firstCall pMyDevice (Overlay.holds_of_nothing rfl rfl nothing _) ?_ ?_
    · simp
    · simp

theorem Overlay.Reflects.firstCall_cons {o : Overlay D} {first : OverlayEvent D F}
    {rest : List (OverlayEvent D F)} (h : o.Reflects (first :: rest)) : o.firstCall = false := by
  cases h with
  | used firstCall => exact firstCall

theorem uninstallHooks_unused {o : Overlay D} (pFont : o.pFont = none)
    (pSprite : o.pSprite = none) :
    uninstallHooks o = { o with oEndScene := false, oPresent := false } := by
  simp only [uninstallHooks, pFont, pSprite]

/-- Each text is drawn with the pointers as they are, up to a call that crashes. -/
theorem drawTexts_cons (o : Overlay D) (size : Nat × Nat) (entry : Int × DevText F)
    (texts : List (Int × DevText F)) :
    ∃ call : DrawCall F, call.font = o.pFont ∧ call.fontSprite = o.pSprite ∧
      (drawMessage o call = none ∧ drawTexts o size (entry :: texts) = ([call], false) ∨
        drawTexts o size (entry :: texts) =
          (call :: (drawTexts o size texts).1, (drawTexts o size texts).2)) := by
  refine ⟨⟨o.pFont, o.pSprite, entry.2, size.1, size.2⟩, rfl, rfl, ?_⟩
  simp only [drawTexts]
  split
  next crashed => exact Or.inl ⟨crashed, rfl⟩
  next => exact Or.inr rfl

theorem mem_drawTexts {o : Overlay D} {size : Nat × Nat} {texts : List (Int × DevText F)}
    {call : DrawCall F} (h : call ∈ (drawTexts o size texts).1) :
    call.font = o.pFont ∧ call.fontSprite = o.pSprite := by
  induction texts with
  | nil => cases h
  | cons entry texts ih =>
    obtain ⟨first, font, sprite, ⟨_, drawn⟩ | drawn⟩ := drawTexts_cons o size entry texts
    · rw [drawn] at h
      obtain rfl := List.mem_singleton.mp h
      exact ⟨font, sprite⟩
    · rw [drawn] at h
      rcases List.mem_cons.mp h with rfl | later
      · exact ⟨font, sprite⟩
      · exact ih later

/-- The first text is drawn in any case. -/
theorem exists_drawTexts {o : Overlay D} {texts : List (Int × DevText F)} (some_text : texts ≠ [])
    (size : Nat × Nat) : ∃ call, call ∈ (drawTexts o size texts).1 := by
  obtain ⟨entry, texts, rfl⟩ := List.exists_cons_of_ne_nil some_text
  obtain ⟨first, _, _, ⟨_, drawn⟩ | drawn⟩ := drawTexts_cons o size entry texts
  · exact ⟨first, by rw [drawn]; exact List.mem_singleton_self first⟩
  · exact ⟨first, by rw [drawn]; exact List.mem_cons_self⟩

/-- Both resources can be used to draw on the device. -/
structure Overlay.Ready (o : Overlay D) (pDevice : D) : Prop where
  font : ∃ p, o.pFont = some p ∧ live o.objects p = some ⟨.font, pDevice⟩
  sprite : ∃ p, o.pSprite = some p ∧ live o.objects p = some ⟨.sprite, pDevice⟩

theorem drawMessage_of_ready {o : Overlay D} {pDevice : D} (ready : o.Ready pDevice)
    {call : DrawCall F} (font : call.font = o.pFont) (sprite : call.fontSprite = o.pSprite) :
    drawMessage o call = some true := by
  obtain ⟨⟨p, pFont, liveFont⟩, p', pSprite, liveSprite⟩ := ready
  simp [drawMessage, Overlay.method, font, sprite, pFont, pSprite, liveFont, liveSprite]

theorem drawTexts_done {o : Overlay D} {pDevice : D} (ready : o.Ready pDevice) (size : Nat × Nat)
    (texts : List (Int × DevText F)) : (drawTexts o size texts).2 = true := by
  induction texts with
  | nil => rfl
  | cons entry texts ih =>
    obtain ⟨first, font, sprite, ⟨crashed, _⟩ | drawn⟩ := drawTexts_cons o size entry texts
    · rw [drawMessage_of_ready ready font sprite] at crashed
      cases crashed
    · rw [drawn]
      exact ih

theorem Overlay.Holds.ready_iff {o : Overlay D} {pDevice : D} (h : o.Holds pDevice) :
    o.Ready pDevice ↔ o.pFont.isSome = true ∧ o.pSprite.isSome = true := by
  constructor
  · rintro ⟨⟨p, pFont, _⟩, p', pSprite, _⟩
    rw [pFont, pSprite]
    exact ⟨rfl, rfl⟩
  · rintro ⟨pFont, pSprite⟩
    obtain ⟨p, pFont⟩ := Option.isSome_iff_exists.mp pFont
    obtain ⟨p', pSprite⟩ := Option.isSome_iff_exists.mp pSprite
    exact ⟨⟨p, pFont, h.font p pFont⟩, p', pSprite, h.sprite p' pSprite⟩

theorem sceneLasts_iff {o : Overlay D} {before : List (OverlayEvent D F)} {pDevice : D}
    (h : o.Reflects (fromFirstScene before)) :
    SceneLasts pDevice before ↔ (o.pMyDevice = some pDevice → o.Ready pDevice) := by
  unfold SceneLasts
  generalize fromFirstScene before = later at h
  cases h with
  | unused firstCall pFont pSprite pMyDevice nothing =>
    rw [pMyDevice]
    simp
  | @used font sprite original device rest firstCall pMyDevice holds pFont pSprite =>
    rw [pMyDevice]
    constructor
    · rintro lasts ⟨⟩
      obtain ⟨rfl, rfl, kept⟩ := lasts font sprite original rest rfl
      exact holds.ready_iff.mpr ⟨pFont.mpr ⟨rfl, kept⟩, pSprite.mpr ⟨rfl, kept⟩⟩
    · rintro ready font' sprite' original' rest' ⟨⟩
      obtain ⟨someFont, someSprite⟩ := holds.ready_iff.mp (ready rfl)
      exact ⟨(pFont.mp someFont).1, (pSprite.mp someSprite).1, (pFont.mp someFont).2⟩

variable [DecidableEq D]

theorem reflects_step {o o' : Overlay D} {before : List (OverlayEvent D F)}
    {e : OverlayEvent D F} (h : o.Reflects (fromFirstScene before))
    (step : overlayStep o e = some o') : o'.Reflects (fromFirstScene (before ++ [e])) := by
  generalize suffix : fromFirstScene before = later at h
  cases later with
  | nil =>
    obtain ⟨firstCall, pFont, pSprite, pMyDevice, nothing⟩ := h
    rw [fromFirstScene_nil_append suffix]
    cases e with
    | installHooks device endScene present =>
      simp only [overlayStep, installHooks] at step
      split at step
      next =>
        cases Option.some.inj step
        exact .unused firstCall pFont pSprite pMyDevice nothing
      next => cases step
    | endSceneHook font sprite original pDevice =>
      simp only [overlayStep, endSceneHook_snd, firstCall, if_true] at step
      cases Option.some.inj step
      exact reflects_firstScene pFont pSprite nothing font sprite original pDevice
    | presentHook buffer texts original pDevice =>
      obtain ⟨_, _, rfl⟩ := Option.map_eq_some_iff.mp step
      exact .unused firstCall pFont pSprite pMyDevice nothing
    | uninstallHooks =>
      cases Option.some.inj step
      rw [uninstallHooks_unused pFont pSprite]
      exact .unused firstCall pFont pSprite pMyDevice nothing
  | cons first rest =>
    rw [fromFirstScene_cons_append suffix]
    cases e with
    | installHooks device endScene present =>
      simp only [overlayStep, installHooks] at step
      split at step
      next =>
        cases Option.some.inj step
        exact h.later (by simp) endScene present
      next => cases step
    | endSceneHook font sprite original pDevice =>
      simp only [overlayStep, endSceneHook_snd, h.firstCall_cons, Bool.false_eq_true,
        if_false] at step
      cases Option.some.inj step
      exact h.later (by simp) o.oEndScene o.oPresent
    | presentHook buffer texts original pDevice =>
      obtain ⟨_, _, rfl⟩ := Option.map_eq_some_iff.mp step
      exact h.later (by simp) o.oEndScene o.oPresent
    | uninstallHooks =>
      cases Option.some.inj step
      exact h.uninstall

/-- The state after a run reflects what the run has done since its first scene. -/
theorem reflects_run {events : List (OverlayEvent D F)} {o : Overlay D}
    (run : Trace.exec overlayStep Overlay.start events = some o) :
    o.Reflects (fromFirstScene events) := by
  induction events using List.reverseRecOn generalizing o with
  | nil =>
    cases Option.some.inj run
    exact .unused rfl rfl rfl rfl (by simp [Overlay.start, live])
  | append_singleton before e ih =>
    rw [Trace.exec_append_eq] at run
    obtain ⟨t, earlier, last⟩ := Option.bind_eq_some_iff.mp run
    obtain ⟨t', step, done⟩ := Trace.exec_cons last
    cases Option.some.inj done
    exact reflects_step (ih earlier) step

theorem drawsSound_iff {o : Overlay D} {buffer : BackBuffer} {texts : List (Int × DevText F)}
    {original : Int} {pDevice : D} :
    DrawsSound o (.presentHook buffer texts original pDevice) ↔
      (texts ≠ [] → o.pMyDevice = some pDevice → o.Ready pDevice) := by
  simp only [DrawsSound, presentHook]
  constructor
  · intro sound some_text device
    rw [if_pos device.symm] at sound
    obtain ⟨call, drawn⟩ := exists_drawTexts (o := o) some_text buffer.size
    obtain ⟨font, sprite⟩ := mem_drawTexts drawn
    have used := sound call drawn
    exact ⟨font ▸ used.font, sprite ▸ used.fontSprite⟩
  · intro ready call drawn
    split at drawn
    next device =>
      obtain ⟨font, sprite⟩ := mem_drawTexts drawn
      have some_text : texts ≠ [] := by
        rintro rfl
        cases drawn
      obtain ⟨readyFont, readySprite⟩ := ready some_text device.symm
      exact ⟨font.symm ▸ readyFont, sprite.symm ▸ readySprite⟩
    next => cases drawn

/-- Only a failed installation and an unsound call of `draw_message` crash. -/
theorem overlayStep_possible (o : Overlay D) (e : OverlayEvent D F) (sound : DrawsSound o e)
    (installed : ∀ endScene present, e ≠ .installHooks false endScene present) :
    ∃ o', overlayStep o e = some o' := by
  cases e with
  | installHooks device endScene present =>
    cases device with
    | false => exact absurd rfl (installed endScene present)
    | true => exact ⟨_, rfl⟩
  | endSceneHook font sprite original pDevice => exact ⟨_, rfl⟩
  | presentHook buffer texts original pDevice =>
    simp only [overlayStep, presentHook]
    split
    next device =>
      by_cases some_text : texts = []
      · rw [some_text]
        exact ⟨o, rfl⟩
      · have ready := drawsSound_iff.mp sound some_text device.symm
        rw [if_pos (drawTexts_done ready buffer.size texts)]
        exact ⟨o, rfl⟩
    next => exact ⟨o, rfl⟩
  | uninstallHooks => exact ⟨_, rfl⟩

/-- A run that has not stopped contains no failed installation. -/
theorem installed_of_run {s o : Overlay D} {before : List (OverlayEvent D F)}
    (run : Trace.exec overlayStep s before = some o) (endScene present : Bool) :
    .installHooks false endScene present ∉ before := by
  intro failed
  obtain ⟨front, back, rfl⟩ := List.append_of_mem failed
  rw [Trace.exec_append_eq] at run
  obtain ⟨t, _, run⟩ := Option.bind_eq_some_iff.mp run
  obtain ⟨_, crashed, _⟩ := Trace.exec_cons run
  cases crashed

/-- In every run all calls of `draw_message` have their resources exactly if the first scene lasts
whenever texts are presented on its device. -/
theorem overlay_drawsSound_iff (events : List (OverlayEvent D F)) :
    Trace.Obeys overlayStep DrawsSound Overlay.start events ↔ FirstSceneLasts events := by
  constructor
  · intro sound before buffer entry texts original pDevice after split installed
    obtain ⟨o, run⟩ : ∃ o, Trace.exec overlayStep Overlay.start before = some o := by
      have intact : ∀ e ∈ before, ∀ endScene present,
          e ≠ .installHooks false endScene present := by
        rintro _ he endScene present rfl
        exact installed endScene present he
      have allowed := (split ▸ sound).front.and (Trace.obeys_of_forall intact)
      exact Trace.exec_of_obeys (fun o e h => overlayStep_possible o e h.1 h.2) allowed
    have drawn := Trace.obeys_iff_forall_split.mp sound before _ after o split run
    exact (sceneLasts_iff (reflects_run run)).mpr (drawsSound_iff.mp drawn (List.cons_ne_nil _ _))
  · intro lasts
    refine Trace.obeys_iff_forall_split.mpr ?_
    intro before e after o split run
    cases e with
    | presentHook buffer texts original pDevice =>
      refine drawsSound_iff.mpr ?_
      intro some_text
      obtain ⟨entry, texts, rfl⟩ := List.exists_cons_of_ne_nil some_text
      have scene := lasts before buffer entry texts original pDevice after split
        (installed_of_run run)
      exact (sceneLasts_iff (reflects_run run)).mp scene
    | _ => trivial

/-- After every run that ends with `uninstall_hooks` nothing is left of what has been created. -/
theorem uninstall_run_releases {events : List (OverlayEvent D F)} {o : Overlay D}
    (run : Trace.exec overlayStep Overlay.start (events ++ [.uninstallHooks]) = some o) (p : Nat) :
    live o.objects p = none := by
  rw [Trace.exec_append_eq] at run
  obtain ⟨t, earlier, last⟩ := Option.bind_eq_some_iff.mp run
  cases Option.some.inj last
  have dead : ∀ r, live (uninstallHooks t).objects p ≠ some r := by
    have reflects := reflects_run earlier
    generalize fromFirstScene events = later at reflects
    cases reflects with
    | unused firstCall pFont pSprite pMyDevice nothing =>
      rw [uninstallHooks_unused pFont pSprite]
      exact nothing p
    | used firstCall pMyDevice holds => exact uninstallHooks_cleared holds p
  exact Option.eq_none_iff_forall_ne_some.mpr dead

/-- The installation, and a scene in which the font cannot be created. -/
def fontlessScene : List (OverlayEvent Nat Unit) :=
  [.installHooks true true true, .endSceneHook false true 0 1]

/-- The hooks are removed after a scene and installed again. -/
def reinstalled : List (OverlayEvent Nat Unit) :=
  [.installHooks true true true, .endSceneHook true true 0 1, .uninstallHooks,
    .installHooks true true true, .endSceneHook true true 0 1]

/-- A text is presented on the device of these scenes. -/
def presentText : OverlayEvent Nat Unit :=
  .presentHook ⟨0, some (0, 1280, 720)⟩ [(1, default)] 0 1

/-- Without the font, and after the hooks have been installed a second time, null pointers are
drawn with. -/
theorem reinstall_breaks_drawsSound :
    (¬ Trace.Obeys overlayStep DrawsSound Overlay.start (fontlessScene ++ [presentText])) ∧
    ¬ Trace.Obeys overlayStep DrawsSound Overlay.start (reinstalled ++ [presentText]) := by
  constructor
  · intro sound
    have drawn := Trace.obeys_iff_forall_split.mp sound fontlessScene presentText [] _ rfl rfl
    obtain ⟨p, font, _⟩ := (drawsSound_iff.mp drawn (List.cons_ne_nil _ _) rfl).font
    cases font
  · intro sound
    have drawn := Trace.obeys_iff_forall_split.mp sound reinstalled presentText [] _ rfl rfl
    obtain ⟨p, font, _⟩ := (drawsSound_iff.mp drawn (List.cons_ne_nil _ _) rfl).font
    cases font

end DriverSF
