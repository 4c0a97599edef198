import ShortReel.NameOrder

/-!
# Swap directories

`staged_swap.py`: the names of the directories that the exchange of a project directory leaves next to
it.
-/

namespace ShortReel.SwapDirs

open NameOrder

def rollbackInfix : Name :=
  ['.', 'v', '6', '-', 'r', 'o', 'l', 'l', 'b', 'a', 'c', 'k', '-']

def stagingInfix : Name :=
  ['.', 'v', '6', '-']

/-- `_SUFFIX_CHARS`. -/
def isSuffixChar (c : Char) : Bool :=
  c ∈ ['0', '1', '2', '3', '4', '5', '6', '7', '8', '9', 'a', 'b', 'c', 'd', 'e', 'f']

def suffixLength : ℕ := 32

/-- `str.rpartition`: what stands before and behind the last place of a separator. -/
def rpartition (separator : Name) : Name → Option (Name × Name)
  | [] => none
  | c :: name =>
      match rpartition separator name with
      | some (head, suffix) => some (c :: head, suffix)
      | none =>
          if separator.isPrefixOf (c :: name) then some ([], (c :: name).drop separator.length)
          else none

def projectNameFromSwapDir (dirName separator : Name) : Option Name :=
  if dirName.head? ≠ some '.' then none
  else
    match rpartition separator dirName with
    | none => none
    | some (head, suffix) =>
        if suffix.length ≠ suffixLength ∨ ¬ suffix.all isSuffixChar then none
        else
          let name := head.tail
          if name = [] ∨ name = ['.'] ∨ name = ['.', '.'] ∨ '/' ∈ name ∨ '\\' ∈ name then none
          else some name

def rollbackProjectName (dirName : Name) : Option Name :=
  projectNameFromSwapDir dirName rollbackInfix

def stagingProjectName (dirName : Name) : Option Name :=
  if (rollbackProjectName dirName).isSome then none
  else projectNameFromSwapDir dirName stagingInfix

/-- `new_rollback_dir`, with the characters of the `uuid4`. -/
def newRollbackDir (projectName suffix : Name) : Name :=
  '.' :: (projectName ++ rollbackInfix ++ suffix)

/-- `new_staging_dir`, likewise. -/
def newStagingDir (projectName suffix : Name) : Name :=
  '.' :: (projectName ++ stagingInfix ++ suffix)

end ShortReel.SwapDirs
