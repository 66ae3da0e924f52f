/-!
# Pathnames

A pathname is what a program hands to the operating system to say which file it means. It is cut at
its slashes into steps, which lead from one directory to the next: a period stays, two periods go up,
any other name goes down. It starts at the top of the tree if a slash comes first and in the working
directory otherwise. The path of a file is the list of the names that lead to it from the top.
-/

namespace ChunkedArray

/-- The names from the top to a file or directory. -/
abbrev Path := List String

inductive Step where
  | stay
  | up
  | down (name : String)
deriving DecidableEq

namespace Step

/-- What stands between two slashes; two slashes with nothing between them are like one. -/
def ofText (s : String) : Step :=
  if s = "" ∨ s = "." then .stay else if s = ".." then .up else .down s

def hasZero : Step → Bool
  | .down name => name.toList.contains '\x00'
  | _ => false

end Step

structure Pathname where
  /-- Starts at the top, not in the working directory. -/
  absolute : Bool
  steps : List Step
  /-- Ends with a slash, which only a directory may have behind its name. -/
  trailingSlash : Bool
  /-- The number of bytes. -/
  size : Nat
deriving DecidableEq

namespace Pathname

def ofText (s : String) : Pathname :=
  let absolute := s.startsWith "/"
  let parts := (s.toList.splitOnP (· == '/')).map String.ofList
  let parts := if absolute then parts.drop 1 else parts
  let steps := (parts.reverse.dropWhile (· == "")).reverse.map Step.ofText
  ⟨absolute, steps, s.endsWith "/", s.utf8ByteSize⟩

def ofPath (p : Path) : Pathname :=
  ⟨true, p.map .down, false, p.foldl (fun size name => size + 1 + name.utf8ByteSize) 0⟩

/-- Names no file, not even a directory. -/
def isEmpty (n : Pathname) : Bool := !n.absolute && n.steps.isEmpty

/-- No name may hold a zero character. -/
def hasZero (n : Pathname) : Bool := n.steps.any Step.hasZero

/-- The steps to the directory that is above in the text; a period at the end is passed over. -/
def parentSteps (n : Pathname) : List Step :=
  ((n.steps.reverse.dropWhile (· == .stay)).drop 1).reverse

end Pathname

namespace Path

def toText (p : Path) : String := String.join (p.map ("/" ++ ·))

end Path

end ChunkedArray
