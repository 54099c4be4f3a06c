import Mathlib.Logic.Relation
import Markdown.Proofs.FirstFaults
import Markdown.Proofs.Tables

/-!
# The shape of a content

One text can be handed over in many shapes: by itself, as the only element of a sequence,
or in a sequence with empty literals before and after it. `Reshapes` lists what may be done
to the shape of a content, and contents that differ by such steps have the same shape. A
slot makes the same of both, the same piece or the same fault, because each single step
leaves its outcome as it is (`fill_of_reshapes`), and so does every constructor that fills
a slot with its content (`outcome_of_shape`).

A list does not fill a slot with its items, but its only item may stand by itself as well.
-/

namespace Markdown

/-- What may be done to the shape of a content. -/
inductive Content.Reshapes : Content → Content → Prop
  /-- A single item is put into a sequence. -/
  | single (i : Item) : Reshapes (.item i) (.sequence [.item i])
  /-- An empty literal is replaced by an empty sequence. -/
  | empty : Reshapes (.literal []) (.sequence [])
  /-- An empty literal is put into a sequence. -/
  | insert (cs ds : List Content) :
      Reshapes (.sequence (cs ++ ds)) (.sequence (cs ++ .literal [] :: ds))
  /-- An empty literal is put into a sequence within a sequence. -/
  | inside {as bs : List Content} (cs ds : List Content) :
      Reshapes (.sequence as) (.sequence bs) →
        Reshapes (.sequence (cs ++ .sequence as :: ds)) (.sequence (cs ++ .sequence bs :: ds))

/-- One content can be had from the other by such steps, done or undone. -/
def Content.SameShape : Content → Content → Prop :=
  Relation.EqvGen Content.Reshapes

namespace Slot

variable {slot : Slot} {escape : Bool}

theorem fill_of_not_flat {c : Content} (h : ¬c.Flat) :
    slot.fill escape c = .error (.nestedSequence slot.owner) := by
  rw [fill_eq_settle, fault?, if_neg h]
  rfl

theorem write_nil : slot.write escape (.literal []) = [] := by
  cases escape with
  | false => rfl
  | true => cases hcontext : slot.context <;> simp [write, hcontext] <;> rfl

theorem fill_of_reshapes {c d : Content} (h : c.Reshapes d) :
    slot.fill escape c = slot.fill escape d := by
  cases h with
  | single i => rfl
  | empty =>
      have hempty : slot.fill escape (.literal []) = .ok ⟨[], escape⟩ := by
        refine fill_eq_ok_iff.mpr
          ⟨List.forall_mem_singleton.mpr rfl, List.forall_mem_singleton.mpr trivial, ?_⟩
        have hleaves : (Content.literal []).leaves = [.literal []] := rfl
        rw [Content.nodes, hleaves, List.flatMap_singleton, write_nil]
        simp [Item.node?]
      rw [hempty, eq_comm]
      refine fill_eq_ok_iff.mpr ⟨List.forall_mem_nil _, List.forall_mem_nil _, ?_⟩
      exact congrArg (Piece.mk []) (Bool.and_true escape)
  | insert cs ds =>
      have hflat : (Content.sequence (cs ++ ds)).Flat ↔
          (Content.sequence (cs ++ .literal [] :: ds)).Flat := by
        show (∀ d ∈ cs ++ ds, d.isItem = true) ↔ ∀ d ∈ cs ++ .literal [] :: ds, d.isItem = true
        rw [List.forall_mem_append, List.forall_mem_append, List.forall_mem_cons]
        exact and_congr_right fun _ => (and_iff_right rfl).symm
      have hleaves : ∀ cs : List Content, (Content.sequence cs).leaves =
          cs.flatMap Content.leaves := leavesOfAll_eq_flatMap
      have hliteral : (Content.literal []).leaves = [.literal []] := rfl
      rw [fill_eq_settle, fill_eq_settle, fault?, fault?, Content.nodes, Content.nodes, hleaves,
        hleaves]
      simp only [hflat, hliteral, List.flatMap_append, List.flatMap_cons, List.singleton_append,
        List.findSome?_append, List.findSome?_cons, refusal?, write_nil, List.nil_append,
        List.filterMap_append, List.filterMap_cons, Item.node?]
  | inside cs ds h =>
      have hnested : ∀ es, ¬(Content.sequence (cs ++ .sequence es :: ds)).Flat := by
        intro es hflat
        exact absurd (hflat (.sequence es) (List.mem_append_right _ List.mem_cons_self))
          Bool.false_ne_true
      rw [fill_of_not_flat (hnested _), fill_of_not_flat (hnested _)]

/-- **Contents of the same shape come to the same.** -/
theorem fill_of_sameShape {c d : Content} (h : c.SameShape d) :
    slot.fill escape c = slot.fill escape d := by
  induction h with
  | rel c d h => exact fill_of_reshapes h
  | refl c => rfl
  | symm c d _ ih => exact ih.symm
  | trans b c d _ _ ihb ihc => exact ihb.trans ihc

/-- Two sequences that are written one after the other can be written as one. -/
theorem fill_append {cs ds : List Content} {p q : Piece}
    (hp : slot.fill escape (.sequence cs) = .ok p)
    (hq : slot.fill escape (.sequence ds) = .ok q) :
    slot.fill escape (.sequence (cs ++ ds)) = .ok ⟨p.text ++ q.text, p.escaped && q.escaped⟩ := by
  obtain ⟨hflat, hadmits, rfl⟩ := fill_eq_ok_iff.mp hp
  obtain ⟨hflat', hadmits', rfl⟩ := fill_eq_ok_iff.mp hq
  have hleaves : (Content.sequence (cs ++ ds)).leaves =
      (Content.sequence cs).leaves ++ (Content.sequence ds).leaves := by
    simp only [Content.leaves, leavesOfAll_eq_flatMap, List.flatMap_append]
  rw [fill_eq_ok_iff, Content.nodes, hleaves]
  refine ⟨List.forall_mem_append.mpr ⟨hflat, hflat'⟩,
    List.forall_mem_append.mpr ⟨hadmits, hadmits'⟩, ?_⟩
  rw [List.flatMap_append, List.filterMap_append, List.all_append]
  cases escape <;> rfl

end Slot

/-! ## Constructors -/

section

variable {w : Writer} {escape : Bool}

theorem Wrap.make_of_sameShape {c d : Content} (h : c.SameShape d) (wrap : Wrap) :
    wrap.make w c escape = wrap.make w d escape := by
  rw [Wrap.make_eq, Wrap.make_eq, Frame.build, Frame.build, Slot.fill_of_sameShape h]

theorem rowPiece_of_sameShape {cs ds : List Content}
    (h : List.Forall₂ Content.SameShape cs ds) (row : Option Nat) :
    rowPiece escape row cs = rowPiece escape row ds := by
  rw [rowPiece, rowPiece]
  refine congrArg (· >>= _) (mapM_eq_of_forall₂ ((forall₂_zipIdx h 1).imp ?_))
  rintro ⟨c, column⟩ ⟨d, _⟩ ⟨hcd, rfl⟩
  show cellPiece escape row column c = cellPiece escape row column d
  rw [cellPiece, cellPiece, Slot.fill_of_sameShape hcd]

theorem Writer.table_of_sameShape {cs ds : List Content} {css dss : List (List Content)}
    (hheader : List.Forall₂ Content.SameShape cs ds)
    (hrows : List.Forall₂ (List.Forall₂ Content.SameShape) css dss) (alignments : List Text) :
    w.table cs css alignments escape = w.table ds dss alignments escape := by
  have hwidths : css.map List.length = dss.map List.length :=
    map_eq_of_forall₂ (hrows.imp fun _ _ hrow => hrow.length_eq)
  have hcolumns : cs.length = ds.length := hheader.length_eq
  have hempty : cs ≠ [] ↔ ds ≠ [] := ne_nil_iff_of_forall₂ hheader
  have hbody : ((css.zipIdx 1).mapM fun x => rowPiece escape (some x.2) x.1) =
      (dss.zipIdx 1).mapM fun x => rowPiece escape (some x.2) x.1 := by
    refine mapM_eq_of_forall₂ ((forall₂_zipIdx hrows 1).imp ?_)
    rintro ⟨cells, row⟩ ⟨cells', _⟩ ⟨hcells, rfl⟩
    exact rowPiece_of_sameShape hcells (some row)
  rw [table, table, hcolumns, requireWidth_congr _ hwidths, rowPiece_of_sameShape hheader]
  simp only [hempty, hbody]

end

/-- **The shape of a content does not matter.** A constructor around content makes the same
node of contents of the same shape, or fails with the same fault, and so does a table whose
cells have the same shape, cell by cell. Two sequences that can be written can be written as
one, with their texts one after the other, and this is escaped if both are. For a list, a
single item is the sequence that has only this item, whatever its flags are. -/
theorem outcome_of_shape (w : Writer) (escape : Bool) :
    (∀ c d : Content, c.SameShape d → ∀ wrap : Wrap,
      wrap.make w c escape = wrap.make w d escape) ∧
    (∀ cs ds : List Content, ∀ css dss : List (List Content), ∀ alignments : List Text,
      List.Forall₂ Content.SameShape cs ds →
      List.Forall₂ (List.Forall₂ Content.SameShape) css dss →
      w.table cs css alignments escape = w.table ds dss alignments escape) ∧
    (∀ (slot : Slot) (cs ds : List Content) (p q : Piece),
      slot.fill escape (.sequence cs) = .ok p → slot.fill escape (.sequence ds) = .ok q →
      slot.fill escape (.sequence (cs ++ ds)) =
        .ok ⟨p.text ++ q.text, p.escaped && q.escaped⟩) ∧
    ∀ (style : ListStyle) (c : Content), c.isItem = true →
      style.make w (.sequence [c]) escape = style.make w c escape := by
  refine ⟨fun c d h wrap => wrap.make_of_sameShape h, fun cs ds css dss alignments hcs hcss =>
    Writer.table_of_sameShape hcs hcss alignments, fun slot cs ds p q => Slot.fill_append, ?_⟩
  intro style c hc
  cases c with
  | item i => cases style <;> rfl
  | sequence es => exact absurd hc nofun

/-- A literal by itself and between empty literals, in a quotation, in a table and in a list,
and a node that a heading would refuse before a sequence that it refuses first. -/
theorem outcome_of_shape_padded :
    let a : Content := .literal "- |a".toList
    let b : Content := .sequence [.literal [], .literal "- |a".toList, .literal []]
    let bad : Content := .node ⟨.paragraph, "p".toList, false⟩
    let c : Content := .sequence [bad, .sequence []]
    let d : Content := .sequence [bad, .sequence [.literal []], .literal []]
    a.SameShape b ∧ c.SameShape d ∧
      Writer.blockquote {} b true = .ok ⟨.blockquote, "> \\- |a\n\n".toList, true⟩ ∧
      Writer.heading {} 1 d true = .error (.nestedSequence .heading) ∧
      Writer.table {} [b, a] [[a, b]] [] true = Writer.table {} [a, b] [[b, a]] [] true ∧
      cellSlot.fill false (.sequence [.literal "|".toList, .literal "\\".toList]) =
        .ok ⟨"|\\".toList, false⟩ ∧
      Writer.checklist {} (.sequence [a]) (some [true]) true =
        .ok ⟨.checklist, "- [x] \\- |a\n\n".toList, true⟩ := by
  intro a b bad c d
  have hab : a.SameShape b :=
    .trans _ _ _ (.rel _ _ (.single _)) (.trans _ _ _ (.rel _ _ (.insert [] [a]))
      (.rel _ _ (.insert [.literal [], a] [])))
  have hcd : c.SameShape d :=
    .trans _ _ _ (.rel _ _ (.inside [bad] [] (.insert [] [])))
      (.rel _ _ (.insert [bad, .sequence [.literal []]] []))
  obtain ⟨hwrap, htable, -, hlist⟩ := outcome_of_shape {} true
  obtain ⟨-, -, hfill, -⟩ := outcome_of_shape {} false
  refine ⟨hab, hcd, ?_, ?_, ?_, ?_, ?_⟩
  · exact (hwrap a b hab .blockquote).symm
  · exact (hwrap c d hcd (.heading 1)).symm
  · exact htable _ _ _ _ [] (.cons (hab.symm _ _) (.cons hab .nil))
      (.cons (.cons hab (.cons (hab.symm _ _) .nil)) .nil)
  · exact hfill cellSlot [.literal "|".toList] [.literal "\\".toList] ⟨"|".toList, false⟩
      ⟨"\\".toList, false⟩ rfl rfl
  · exact hlist (.boxes (some [true])) a rfl

end Markdown
