import Eltex.TextManager.Navigate

/-!
# The paths of the two panels

Enter and `h` append to the path of the focused window and let `clear_path`
make it canonical through the working directory of the process, which both
windows share.  A window's own path (`ownPath`) follows its moves alone, by the
names that were listed: each that can be entered leads to the path of its
directory, the others leave it.

When a move cannot be entered `clear_path` writes the working directory, and
that is where the last successful move of either window led.  What is appended
need not be the name listed, since by then the entries have been given back.
So the panels are independent as long as a failing move finds the process in
the directory of its own window, and what is appended leads where the name
listed does (`navigate_independent_iff`).
-/

namespace Eltex.TextManager

open Files (PathName)
open Runs

section
variable {dirs : Dirs} {getmaxy : Fin windowCount → Nat} {s s' : Nav} {p : Press}

end

end Eltex.TextManager
