import Mathlib.Logic.Function.Basic

namespace FileStreams

/-- A set of directories, a map from paths to file contents, and the number of streams
that one process has open out of those it may have. A path is the list of its names. -/
structure Disk (γ β : Type*) where
  isDir : List γ → Bool
  file : List γ → Option (List β)
  limit : Nat
  opened : Nat

variable {γ β : Type*}

def Disk.CanOpen (d : Disk γ β) : Prop := d.opened < d.limit

instance (d : Disk γ β) : Decidable d.CanOpen := inferInstanceAs (Decidable (_ < _))

def Disk.openRead (d : Disk γ β) (path : List γ) : Option (List β × Disk γ β) :=
  if d.CanOpen then
    (d.file path).map fun content => (content, { d with opened := d.opened + 1 })
  else none

theorem Disk.openRead_isSome {d : Disk γ β} {path : List γ} :
    (d.openRead path).isSome ↔ d.CanOpen ∧ (d.file path).isSome := by
  by_cases room : d.CanOpen <;> simp [Disk.openRead, room]

theorem Disk.openRead_of_file {d : Disk γ β} {path : List γ} {content : List β}
    (room : d.CanOpen) (file : d.file path = some content) :
    d.openRead path = some (content, { d with opened := d.opened + 1 }) := by
  simp [Disk.openRead, room, file]

theorem Disk.openRead_of_missing {d : Disk γ β} {path : List γ} (missing : d.file path = none) :
    d.openRead path = none := by
  simp [Disk.openRead, missing]

def Disk.close (d : Disk γ β) : Disk γ β := { d with opened := d.opened - 1 }

/-- No file is lost, and every file that exists keeps its content. -/
def Disk.Extends (d' d : Disk γ β) : Prop :=
  ∀ path content, d.file path = some content → d'.file path = some content

theorem Disk.Extends.refl (d : Disk γ β) : d.Extends d := fun _ _ h => h

theorem Disk.Extends.trans {d d' d'' : Disk γ β} (h' : d''.Extends d') (h : d'.Extends d) :
    d''.Extends d :=
  fun path content hd => h' path content (h path content hd)

variable [DecidableEq γ]

def Disk.makeDirs (d : Disk γ β) (paths : List (List γ)) : Disk γ β :=
  { d with isDir := fun path => d.isDir path || decide (path ∈ paths) }

def Disk.write (d : Disk γ β) (path : List γ) (content : List β) : Disk γ β :=
  { d with file := Function.update d.file path (some content) }

/-- Opens a file for output and empties it. Its directory must exist. -/
def Disk.openWrite (d : Disk γ β) (path : List γ) : Option (Disk γ β) :=
  if d.CanOpen ∧ d.isDir path.dropLast then
    some { d.write path [] with opened := d.opened + 1 }
  else none

/-- Opens for output a file that must not exist. -/
def Disk.openNew (d : Disk γ β) (path : List γ) : Option (Disk γ β) :=
  if d.file path = none then d.openWrite path else none

theorem Disk.openWrite_of_canOpen {d : Disk γ β} {path : List γ} (room : d.CanOpen)
    (dir : d.isDir path.dropLast = true) :
    d.openWrite path = some { d.write path [] with opened := d.opened + 1 } :=
  if_pos ⟨room, dir⟩

theorem Disk.openWrite_of_full {d : Disk γ β} (path : List γ) (full : ¬ d.CanOpen) :
    d.openWrite path = none :=
  if_neg fun h => full h.1

@[simp] theorem Disk.write_file_self (d : Disk γ β) (path : List γ) (content : List β) :
    (d.write path content).file path = some content := by
  simp [Disk.write]

theorem Disk.write_file_ne {d : Disk γ β} {path other : List γ} {content : List β}
    (h : other ≠ path) : (d.write path content).file other = d.file other := by
  simp [Disk.write, h]

theorem Disk.close_write_opened (d : Disk γ β) (path : List γ) (content : List β) :
    (({ d.write path [] with opened := d.opened + 1 } : Disk γ β).write path content).close =
      d.write path content := by
  simp [Disk.write, Disk.close]

theorem Disk.write_extends {d : Disk γ β} {path : List γ} (h : d.file path = none)
    (content : List β) : (d.write path content).Extends d := by
  intro other old hd
  have ne : other ≠ path := by
    rintro rfl
    simp [h] at hd
  rw [Disk.write_file_ne ne, hd]

end FileStreams
