import Markdown.Text

/-!
# Fences

Code stands between two equal runs of backticks, longer than any run in the
code, so the second run is the first place where the code can end.
-/

namespace Markdown

def backticks (n : Nat) : Text :=
  List.replicate n '\x60'

/-- Code with each of its line endings written as one space. -/
def foldBreaks : Text → Text
  | [] => []
  | '\r' :: '\n' :: rest => ' ' :: foldBreaks rest
  | c :: rest => (if isBreak c then ' ' else c) :: foldBreaks rest

/-- Whether a code span needs a space at both ends: when a backtick would touch
a fence, or when a reader would take the space at each end for padding. Code
that is all spaces keeps them without help. -/
def needsPadding (code : Text) : Bool :=
  code.head? == some '\x60' || code.getLast? == some '\x60' ||
    (code.head? == some ' ' && code.getLast? == some ' ' && code.any (· != ' '))

def codeSpan (t : Text) : Text :=
  let code := foldBreaks t
  let fence := backticks (code.longestRun '\x60' + 1)
  let padding := if needsPadding code then [' '] else []
  fence ++ padding ++ code ++ padding ++ fence

def fitsFence (language : Text) : Bool :=
  !language.any fun c => c == '\x60' || isBreak c

/-- A text as a code block, without the blank line after it. A fence has at
least three backticks. -/
def codeFence (language code : Text) : Text :=
  let fence := backticks (max 3 (code.longestRun '\x60' + 1))
  fence ++ language ++ '\n' :: code ++ '\n' :: fence

end Markdown
