import Markdown.Text

/-!
# Kinds of nodes

Every piece of Markdown that the writer makes has one of twenty-one kinds. The
kinds are numbered in the order of their declaration, and each has a name that
messages use.
-/

namespace Markdown

inductive Kind where
  | text
  | bold
  | italic
  | code
  | strikethrough
  | link
  | image
  | lineBreak
  | referenceLink
  | paragraph
  | heading
  | blockquote
  | codeBlock
  | document
  | bulletList
  | orderedList
  | checklist
  | table
  | horizontalRule
  | linkReference
  | empty
deriving DecidableEq, Repr

namespace Kind

def name : Kind → Text
  | .text => "text".toList
  | .bold => "bold".toList
  | .italic => "italic".toList
  | .code => "code".toList
  | .strikethrough => "strikethrough".toList
  | .link => "link".toList
  | .image => "image".toList
  | .lineBreak => "line_break".toList
  | .referenceLink => "reference_link".toList
  | .paragraph => "paragraph".toList
  | .heading => "heading".toList
  | .blockquote => "blockquote".toList
  | .codeBlock => "code_block".toList
  | .document => "document".toList
  | .bulletList => "bullet_list".toList
  | .orderedList => "ordered_list".toList
  | .checklist => "checklist".toList
  | .table => "table".toList
  | .horizontalRule => "horizontal_rule".toList
  | .linkReference => "link_reference".toList
  | .empty => "empty".toList

def count : Nat := 21

def all : List Kind :=
  [.text, .bold, .italic, .code, .strikethrough, .link, .image, .lineBreak,
   .referenceLink, .paragraph, .heading, .blockquote, .codeBlock, .document,
   .bulletList, .orderedList, .checklist, .table, .horizontalRule,
   .linkReference, .empty]

def index (k : Kind) : Nat := k.ctorIdx

def ofIndex? : Int → Option Kind
  | .ofNat n => all[n]?
  | .negSucc _ => none

/-- The name of the kind of a given number. A number without a kind has a name
all the same. -/
def nameAt (i : Int) : Text :=
  match ofIndex? i with
  | some k => k.name
  | none => "unknown".toList

theorem index_lt (k : Kind) : k.index < count := by
  cases k <;> decide

theorem all_getElem?_index (k : Kind) : all[k.index]? = some k := by
  cases k <;> rfl

/-- A kind is found again under its number. -/
theorem ofIndex?_index (k : Kind) : ofIndex? k.index = some k :=
  all_getElem?_index k

theorem mem_all (k : Kind) : k ∈ all :=
  List.mem_of_getElem? (all_getElem?_index k)

theorem index_inj {j k : Kind} : j.index = k.index ↔ j = k := by
  constructor
  · intro h
    have hj := all_getElem?_index j
    rw [h, all_getElem?_index k] at hj
    exact (Option.some.inj hj).symm
  · rintro rfl
    rfl

def ofName? (n : Text) : Option Kind :=
  all.find? (·.name == n)

theorem ofName?_name (k : Kind) : ofName? k.name = some k := by
  cases k <;> rfl

end Kind

end Markdown
