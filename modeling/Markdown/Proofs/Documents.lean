import Markdown.Proofs.FirstFaults
import Markdown.Proofs.Lines

/-!
# Documents

A document is made of blocks and empty nodes, and the first child that is neither is its
only fault (`Node.document_eq`). Each child gives its text without the line endings at its
end, so it does not matter how a block ends or whether a child has any text: there is one
line feed between neighbours, and nothing else is added or lost. So the documents of two
lists of children, put together with a line feed, are the document of both lists
(`document_composes`).
-/

namespace Markdown

theorem Kind.mem_accepts_document_iff {k : Kind} :
    k ∈ Kind.document.accepts ↔ k.isBlock = true ∨ k = .empty := by
  simp [accepts, isBlock]

/-- What is left of a text without the line endings at its end. No other character is
dropped, and no line ending is left there. -/
def Text.ChompsTo (t body : Text) : Prop :=
  ∃ run, t = body ++ run ∧ (∀ c ∈ run, c = '\n' ∨ c = '\r') ∧
    body.getLast? ≠ some '\n' ∧ body.getLast? ≠ some '\r'

theorem Text.chompsTo_chomp (t : Text) : t.ChompsTo t.chomp := by
  obtain ⟨run, hrun, hbreak⟩ := Text.exists_dropEndWhile_append isBreak t
  refine ⟨run, hrun.symm, ?_, ?_, ?_⟩
  · intro c hc
    simpa [isBreak] using hbreak c hc
  · intro hlast
    exact absurd (Text.getLast?_dropEndWhile hlast) (by decide)
  · intro hlast
    exact absurd (Text.getLast?_dropEndWhile hlast) (by decide)

namespace Node

theorem document_eq (ns : List Node) :
    document ns =
      match ns.find? fun n => n.kind ∉ Kind.document.accepts with
      | some n => .error (.nesting .document n.kind)
      | none => .ok ⟨.document, Text.unlines (ns.map (·.text.chomp)), ns.all (·.escaped)⟩ := by
  let slot : Slot := { owner := .document }
  have hchild (n : Node) : (slot.allow n.kind >>= fun _ =>
      pure ⟨n.text.chomp, n.escaped⟩ : Except Fault Piece) =
        settle (slot.refusal? (.node n)) ⟨n.text.chomp, n.escaped⟩ := by
    rw [Slot.allow, require_eq_settle]
    exact settle_bind_ok rfl
  -- a node is refused for its kind alone, so the first one of a wrong kind is the fault
  have hfault : ns.findSome? (fun n => slot.refusal? (.node n)) =
      (ns.find? fun n => n.kind ∉ Kind.document.accepts).map fun n =>
        .nesting .document n.kind := by
    have hnodes : (ns.map Item.node).filterMap Item.node? = ns := by
      rw [List.filterMap_map]
      exact List.filterMap_some
    have hfirst := slot.findSome?_refusal? (ns.map Item.node)
    rw [hnodes, List.findSome?_map] at hfirst
    exact hfirst
  cases hfirst : ns.find? fun n => n.kind ∉ Kind.document.accepts with
  | some n =>
      rw [document, mapM_eq_settle hchild, hfault, hfirst]
      rfl
  | none =>
      have haccepts : ∀ n ∈ ns, n.kind ∈ Kind.document.accepts := by
        simpa using List.find?_eq_none.mp hfirst
      exact document_eq_ok_iff.mpr ⟨haccepts, rfl⟩

theorem document_append {xs ys : List Node} {m n : Node} (hxs : xs ≠ []) (hys : ys ≠ [])
    (hm : document xs = .ok m) (hn : document ys = .ok n) :
    document (xs ++ ys) =
      .ok ⟨.document, m.text ++ '\n' :: n.text, m.escaped && n.escaped⟩ := by
  obtain ⟨hxs', rfl⟩ := document_eq_ok_iff.mp hm
  obtain ⟨hys', rfl⟩ := document_eq_ok_iff.mp hn
  refine document_eq_ok_iff.mpr ⟨List.forall_mem_append.mpr ⟨hxs', hys'⟩, ?_⟩
  rw [List.map_append, List.all_append, Text.unlines_append (by simpa using hxs)
    (by simpa using hys)]

end Node

/-- **Documents compose.** A document can be made exactly of blocks and empty nodes, and the
first child of another kind is the one that is named. Its text is the texts of its children
in order, each without the line endings at its end, with a line feed between neighbours.
The document of two lists of children, if neither is empty, is the documents of the two with
a line feed between them, and it is escaped if both are. -/
theorem document_composes :
    (∀ ns : List Node, (∃ n, Node.document ns = .ok n) ↔
      ∀ m ∈ ns, m.kind.isBlock = true ∨ m.kind = .empty) ∧
    (∀ (ns : List Node) (m : Node),
      (ns.find? fun m => ¬(m.kind.isBlock = true ∨ m.kind = .empty)) = some m →
      Node.document ns = .error (.nesting .document m.kind)) ∧
    (∀ (ns : List Node) (n : Node), Node.document ns = .ok n →
      ∃ bodies, List.Forall₂ (fun m body => m.text.ChompsTo body) ns bodies ∧
        n = ⟨.document, ['\n'].intercalate bodies, ns.all (·.escaped)⟩) ∧
    ∀ (xs ys : List Node) (m n : Node), xs ≠ [] → ys ≠ [] →
      Node.document xs = .ok m → Node.document ys = .ok n →
      Node.document (xs ++ ys) =
        .ok ⟨.document, m.text ++ '\n' :: n.text, m.escaped && n.escaped⟩ := by
  refine ⟨fun ns => ?_, fun ns m hfirst => ?_, fun ns n hn => ?_, fun xs ys m n =>
    Node.document_append⟩
  · simp only [Node.document_eq_ok_iff, Kind.mem_accepts_document_iff]
    exact ⟨fun ⟨_, hkinds, _⟩ => hkinds, fun hkinds => ⟨_, hkinds, rfl⟩⟩
  · rw [Node.document_eq]
    simp only [Kind.mem_accepts_document_iff, hfirst]
  · obtain ⟨-, rfl⟩ := Node.document_eq_ok_iff.mp hn
    refine ⟨ns.map (·.text.chomp), ?_, rfl⟩
    exact List.forall₂_map_right_iff.mpr
      (List.forall₂_same.mpr fun m _ => m.text.chompsTo_chomp)

/-- A heading with its line endings mixed, a child that has nothing else, and a code block
that starts with line feeds of its own. An image is the first child that does not fit. -/
theorem document_composes_endings :
    let xs : List Node := [⟨.heading, "# a \n\r\r\n".toList, true⟩, ⟨.paragraph, "\n\n".toList, true⟩]
    let ys : List Node := [Node.empty, ⟨.codeBlock, "\n\n\t\r".toList, false⟩]
    let image : Node := ⟨.image, "![a](b)".toList, true⟩
    let m : Node := ⟨.document, "# a \n".toList, true⟩
    let n : Node := ⟨.document, "\n\n\n\t".toList, false⟩
    Node.document xs = .ok m ∧ Node.document ys = .ok n ∧
      Node.document (xs ++ ys) = .ok ⟨.document, "# a \n\n\n\n\n\t".toList, false⟩ ∧
      Node.document (xs ++ image :: Node.lineBreak :: ys) =
        .error (.nesting .document .image) ∧
      ∃ bodies, List.Forall₂ (fun m body => m.text.ChompsTo body) ys bodies ∧
        n = ⟨.document, ['\n'].intercalate bodies, false⟩ := by
  intro xs ys image m n
  have hxs : Node.document xs = .ok m := rfl
  have hys : Node.document ys = .ok n := rfl
  obtain ⟨-, hrefused, htext, happend⟩ := document_composes
  refine ⟨hxs, hys, happend xs ys m n (by decide) (by decide) hxs hys, ?_, htext ys n hys⟩
  exact hrefused (xs ++ image :: Node.lineBreak :: ys) image (by decide)

end Markdown
