import Markdown.Fence
import Markdown.Frame
import Markdown.Writer

/-!
# Spans

The nodes that stand within a line. Emphasis takes its marks from the writer;
destinations and labels are escaped for their own context, whatever is demanded
of the text.
-/

namespace Markdown

namespace Writer

def text (w : Writer) (t : Text) (escape : Bool) : Except Fault Node :=
  Frame.build { owner := .text, opening := [], closing := [] }
    w.safeMode (.literal t) escape

def bold (w : Writer) (c : Content) (escape : Bool) : Except Fault Node :=
  Frame.build { owner := .bold, opening := w.strong, closing := w.strong }
    w.safeMode c escape

def italic (w : Writer) (c : Content) (escape : Bool) : Except Fault Node :=
  Frame.build { owner := .italic, opening := w.emphasis, closing := w.emphasis }
    w.safeMode c escape

def strikethrough (w : Writer) (c : Content) (escape : Bool) :
    Except Fault Node :=
  Frame.build
    { owner := .strikethrough, opening := ['~', '~'], closing := ['~', '~'] }
    w.safeMode c escape

def code (w : Writer) (t : Text) (escape : Bool) : Except Fault Node :=
  Frame.build
    { owner := .code, context := .code, opening := [], closing := [],
      finish := codeSpan }
    w.safeMode (.literal t) escape

def link (w : Writer) (c : Content) (url : Text) (escape : Bool) :
    Except Fault Node :=
  Frame.build
    { owner := .link, opening := ['['],
      closing := [']', '('] ++ Context.url.escape url ++ [')'] }
    w.safeMode c escape

def image (w : Writer) (alt url : Text) (escape : Bool) : Except Fault Node :=
  Frame.build
    { owner := .image, opening := ['!', '['],
      closing := [']', '('] ++ Context.url.escape url ++ [')'] }
    w.safeMode (.literal alt) escape

def referenceLink (w : Writer) (c : Content) (label : Text) (escape : Bool) :
    Except Fault Node :=
  Frame.build
    { owner := .referenceLink, opening := ['['],
      closing := [']', '['] ++ Context.url.escape label ++ [']'] }
    w.safeMode c escape

end Writer

def Node.lineBreak : Node := ⟨.lineBreak, [' ', ' ', '\n'], true⟩

/-- Nothing, where a document expects a node. -/
def Node.empty : Node := ⟨.empty, [], true⟩

end Markdown
