import Ucimf.Display.SingleWindow
import Ucimf.Display.Move
import Ucimf.Display.Line
import Ucimf.Display.Bookkeeping
import Ucimf.Display.DrawRect
import Ucimf.Keyboard.Balance
import Ucimf.Keyboard.Keypad
import Ucimf.Raw.Delivery
import Ucimf.Raw.ScanImf
import Ucimf.FbTerm.Activation
import Ucimf.Config.Options
import Ucimf.Text.Ustring
import Ucimf.OpenVanilla.Commit
import Ucimf.OpenVanilla.Utf16
import Ucimf.OpenVanilla.Dictionary
import Ucimf.Driver.FillRect
import Ucimf.Driver.RevRect
import Ucimf.Decoder.Agreement
import Ucimf.Chewing.Coverage
import Ucimf.Driver.RealMemory
import Ucimf.Driver.VgaPlanes
import Ucimf.Driver.Virtual8086
import Ucimf.FbTerm.Answers
import Ucimf.FbTerm.Pending
import Ucimf.Font.Cache
import Ucimf.Raw.Selected
import Ucimf.OpenVanilla.Modules
import Ucimf.OpenVanilla.Shown
import Ucimf.Raw.Locks
import Ucimf.Display.Ink
import Ucimf.Driver.Refinement
import Ucimf.Display.Backend
import Ucimf.Display.Overrun
import Ucimf.Driver.Library
