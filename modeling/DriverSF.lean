import DriverSF.LuaPcallHook
import DriverSF.MailboxRefinement
import DriverSF.CompletionFlags
import DriverSF.StartupReentry
import DriverSF.SessionAgreement
import DriverSF.OverrideSession
import DriverSF.PatchRepetition
import DriverSF.DerivedPath
import DriverSF.ZioStream
import DriverSF.UpvalueReaders
import DriverSF.DeviceInput
import DriverSF.PrintOverride
import DriverSF.TextIndex
import DriverSF.OverlayTexts
import DriverSF.CodeFlow
import DriverSF.ChunkParser
import DriverSF.ChunkAccept
import DriverSF.UpvalueSharing
import DriverSF.TableBorder
import DriverSF.Lexer
import DriverSF.LexerLines
import DriverSF.LexerStream
import DriverSF.LexerText
import DriverSF.LexerTokens
import DriverSF.LexerStrings
import DriverSF.FileChunk
