import Highlight.JavaScript.Comment
import Highlight.Text.Quoted

/-!
# Code in curly brackets

Where embedded code ends is found by balancing its brackets. Brackets in strings, in comments and in
the plain text of templates do not count.
-/

namespace Highlight.JavaScript

/-- The length of a quoted string, counted on from `n` characters that were read; 0 where it is not
closed. A backslash protects the character after it, and line ends do not matter. -/
def quotedLengthFrom (quote : Char) (n : Nat) : List Char → Nat
  | [] => 0
  | c :: s =>
    if c = '\\' then
      match s with
      | [] => 0
      | _ :: rest => quotedLengthFrom quote (n + 2) rest
    else if c = quote then n + 1
    else quotedLengthFrom quote (n + 1) s

def quotedLength : List Char → Nat
  | [] => 0
  | quote :: s => quotedLengthFrom quote 1 s

/-- What is open at a place in code. -/
inductive Nesting where
  | braces
  | template
  deriving DecidableEq, Repr

/-- The length of what stands in curly brackets and is no bracket itself: a string, a comment or a
single character; 0 where a string or a comment is not closed. -/
def plainCodeLength : List Char → Nat
  | [] => 0
  | s@(c :: _) =>
    if Text.isQuote c then quotedLength s
    else if Text.startsWith "//" s then lineCommentLength s
    else if Text.startsWith "/*" s then
      let comment := Comment.blockExtent s
      if comment.terminated then comment.length else 0
    else 1

/-- What the next characters do to the brackets that are open, and how many characters that takes;
0 where the code goes wrong. -/
def nestingStep (top : Nesting) (below : List Nesting) : List Char → List Nesting × Nat
  | [] => ([], 0)
  | s@(c :: rest) =>
    match top with
    | .template =>
      if c = '\x60' then (below, 1)
      else if c = '\\' then (top :: below, 1 + (rest.take 1).length)
      else if Text.startsWith "$\x7b" s then (.braces :: top :: below, 2)
      else (top :: below, 1)
    | .braces =>
      if c = '\x7d' then (below, 1)
      else if c = '\x7b' then (.braces :: top :: below, 1)
      else if c = '\x60' then (.template :: top :: below, 1)
      else (top :: below, plainCodeLength s)

/-- Counts on from `n` to the place where nothing is open any more; 0 where there is none. -/
def bracedLengthFrom (n : Nat) (opened : List Nesting) (s : List Char) : Nat :=
  match opened with
  | [] => n
  | top :: below =>
    match s with
    | [] => 0
    | s@(_ :: _) =>
      let (opened, step) := nestingStep top below s
      if step = 0 then 0 else bracedLengthFrom (n + step) opened (s.drop step)
termination_by s.length
decreasing_by
  simp_all only [List.length_drop, List.length_cons]
  omega

/-- The length of code in curly brackets, brackets included; 0 where they do not balance. -/
def bracedLength (s : List Char) : Nat :=
  if Text.startsWith "\x7b" s then bracedLengthFrom 1 [.braces] (s.drop 1) else 0

end Highlight.JavaScript
