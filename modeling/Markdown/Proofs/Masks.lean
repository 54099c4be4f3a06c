import Markdown.Kinds

/-!
# Sets of kinds as masks

A set of kinds answers every question about it as the mathematical set of its members
does, whatever list it was made from. The list of its members is in the order of the kinds
and gives the set back (`ofList_faithful`).

A machine word of 32 bits has room for all kinds. Held in such a word, a set is made by a
shift and an or for each kind (`mask_ofList`), and membership, union, equality and the
test for emptiness are each one operation on words.
-/

namespace Markdown

namespace Kinds

def maskBit (k : Kind) : BitVec 32 :=
  1#32 <<< k.index

/-- A set in a word of 32 bits. No bit above those of the kinds is set. -/
def mask (s : Kinds) : BitVec 32 :=
  s.bits.setWidth 32

theorem mask_union (s t : Kinds) : (s ∪ t).mask = s.mask ||| t.mask :=
  BitVec.setWidth_or

/-- No bit is lost in a word, so equal words hold equal sets. -/
theorem mask_inj {s t : Kinds} : s.mask = t.mask ↔ s = t := by
  constructor
  · intro h
    have hbits : ∀ u : Kinds, u.mask.setWidth Kind.count = u.bits := fun u =>
      (BitVec.setWidth_setWidth_of_le u.bits (by decide)).trans (BitVec.setWidth_eq u.bits)
    have hst : s.bits = t.bits := by rw [← hbits s, h, hbits t]
    exact congrArg mk hst
  · rintro rfl
    rfl

theorem mem_iff_mask {k : Kind} {s : Kinds} : k ∈ s ↔ s.mask &&& maskBit k ≠ 0 := by
  have hlt : k.index < 32 := Nat.lt_trans k.index_lt (by decide)
  have hbit : maskBit k ≠ 0 := by cases k <;> decide
  have hget : s.mask.getLsbD k.index = s.bits.getLsbD k.index := by
    rw [mask, BitVec.getLsbD_setWidth, decide_eq_true hlt, Bool.true_and]
  rw [mem_def, maskBit, ← BitVec.twoPow_eq, BitVec.and_twoPow, hget]
  split
  · next h => exact iff_of_true h (BitVec.twoPow_eq 32 k.index ▸ hbit)
  · next h => exact iff_of_false h (not_not_intro rfl)

theorem isEmpty_iff {s : Kinds} : s.isEmpty = true ↔ s = ∅ := by
  rw [isEmpty, beq_iff_eq]
  exact ⟨congrArg mk, congrArg bits⟩

theorem isEmpty_iff_mask {s : Kinds} : s.isEmpty = true ↔ s.mask = 0 := by
  rw [isEmpty_iff, ← mask_inj]
  rfl

/-- The loop over a list, with the word of the kinds before it. -/
theorem foldl_maskBit (ks : List Kind) (word : BitVec 32) :
    ks.foldl (fun word k => word ||| maskBit k) word = word ||| (ofList ks).mask := by
  induction ks generalizing word with
  | nil => exact (BitVec.or_zero).symm
  | cons k ks ih =>
      have hbit : mask ⟨bit k⟩ = maskBit k := by cases k <;> rfl
      have hcons : ofList (k :: ks) = ⟨bit k⟩ ∪ ofList ks := rfl
      rw [List.foldl_cons, ih, hcons, mask_union, hbit, BitVec.or_assoc]

theorem mask_ofList (ks : List Kind) :
    (ofList ks).mask = ks.foldl (fun word k => word ||| maskBit k) 0 := by
  rw [foldl_maskBit]
  exact (BitVec.zero_or).symm

theorem ofList_eq_iff {a b : List Kind} : ofList a = ofList b ↔ ∀ k, k ∈ a ↔ k ∈ b := by
  constructor
  · intro h k
    rw [← mem_ofList, h, mem_ofList]
  · intro h
    apply ext_mem
    intro k
    rw [mem_ofList, h, mem_ofList]

theorem ofList_append (a b : List Kind) : ofList (a ++ b) = ofList a ∪ ofList b :=
  ext_mem fun k => by simp

theorem isEmpty_ofList {ks : List Kind} : (ofList ks).isEmpty = true ↔ ks = [] := by
  have hnil : (∅ : Kinds) = ofList [] := rfl
  rw [isEmpty_iff, hnil, ofList_eq_iff, List.eq_nil_iff_forall_not_mem]
  simp

/-- The members are listed in the strict order of their numbers, so each once. -/
theorem pairwise_toList (s : Kinds) : s.toList.Pairwise fun j k => j.index < k.index := by
  have hall : Kind.all.Pairwise fun j k => j.index < k.index := by decide
  exact hall.filter _

theorem ofList_toList (s : Kinds) : ofList s.toList = s :=
  ext_mem fun k => by simp

/-- **A set of kinds is a set.** It is made as a word by shifts and ors. It has the
members of its list, and a union those of both lists. Two sets are equal exactly if their
lists have the same elements, and a union is empty exactly if both lists are. The members
are listed in strict order, and the set is found again from them. -/
theorem ofList_faithful (a b : List Kind) :
    (ofList a).mask = a.foldl (fun word k => word ||| maskBit k) 0 ∧
      (∀ k, k ∈ ofList a ↔ k ∈ a) ∧
      (∀ k, k ∈ ofList a ∪ ofList b ↔ k ∈ a ∨ k ∈ b) ∧
      (ofList a = ofList b ↔ ∀ k, k ∈ a ↔ k ∈ b) ∧
      ((ofList a ∪ ofList b).isEmpty = true ↔ a = [] ∧ b = []) ∧
      (∀ k, k ∈ (ofList a).toList ↔ k ∈ a) ∧
      (ofList a).toList.Pairwise (fun j k => j.index < k.index) ∧
      ofList (ofList a).toList = ofList a := by
  refine ⟨mask_ofList a, fun _ => mem_ofList, fun k => ?_, ofList_eq_iff, ?_, fun k => ?_,
    pairwise_toList _, ofList_toList _⟩
  · rw [mem_union, mem_ofList, mem_ofList]
  · rw [← ofList_append, isEmpty_ofList, List.append_eq_nil_iff]
  · rw [mem_toList, mem_ofList]

end Kinds

end Markdown
