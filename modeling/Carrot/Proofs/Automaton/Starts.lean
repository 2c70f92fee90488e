import Carrot.Grammar.Automaton
import Carrot.Proofs.Grammar.Kinds

/-! # What a sequence starts with

Tokens that the rules derive from a sequence start with a terminal of its set of
starts; the end of the text stands there for no tokens at all.
-/

namespace Carrot.Grammar

namespace TerminalSet

instance : Membership Terminal TerminalSet := ⟨fun a t => a.contains t = true⟩

variable {a b : TerminalSet} {s t : Terminal}

theorem mem_iff : t ∈ a ↔ a.bits.testBit (index t) = true := Iff.rfl

theorem index_inj : index s = index t ↔ s = t := by
  constructor
  · intro h
    cases s with
    | endOfText => cases t <;> simp_all [index]
    | token k =>
      cases t with
      | endOfText => simp [index] at h
      | token l =>
        have hkl := congrArg TokenKind.ofNat (Nat.succ.inj h)
        rw [TokenKind.ofNat_ctorIdx, TokenKind.ofNat_ctorIdx] at hkl
        rw [hkl]
  · rintro rfl
    rfl

theorem mem_single : s ∈ single t ↔ s = t := by
  rw [mem_iff, single, Nat.one_shiftLeft, Nat.testBit_two_pow, decide_eq_true_iff, index_inj,
    eq_comm]

theorem mem_of_isSubset (h : a.isSubset b = true) (ht : t ∈ a) : t ∈ b := by
  have hbits : a.bits ||| b.bits = b.bits := by simpa [isSubset] using h
  rw [mem_iff] at ht ⊢
  rw [← hbits, Nat.testBit_or, ht, Bool.true_or]

theorem mem_andThen_left {k : TokenKind} (ht : .token k ∈ a) : .token k ∈ a.andThen b := by
  rw [andThen]
  split
  · rw [mem_iff] at ht ⊢
    rw [Nat.testBit_or, Nat.testBit_shiftLeft, Nat.testBit_shiftRight]
    simpa [index, Nat.add_comm 1] using .inl ht
  · exact ht

theorem mem_andThen_right (ha : .endOfText ∈ a) (ht : t ∈ b) : t ∈ a.andThen b := by
  have hbits : b.bits.testBit (index t) = true := ht
  have hends : a.contains .endOfText = true := ha
  rw [andThen, if_pos hends, mem_iff, Nat.testBit_or, hbits, Bool.or_true]

end TerminalSet

/-- The terminal that comes next when the kinds `ks` are left. -/
def nextTerminal : List TokenKind → Terminal
  | [] => .endOfText
  | k :: _ => .token k

open TerminalSet

theorem nextTerminal_mem_andThen {a b : TerminalSet} {ks ls : List TokenKind}
    (hks : nextTerminal ks ∈ a) (hls : nextTerminal ls ∈ b) :
    nextTerminal (ks ++ ls) ∈ a.andThen b := by
  cases ks with
  | nil => exact mem_andThen_right hks hls
  | cons k ks => exact mem_andThen_left hks

/-- The starts that were found leave no rule with something new to say. -/
theorem isSubset_starts :
    ∀ r ∈ rules, (firsts starts r.rhs).isSubset (TerminalMap.get starts r.lhs) = true := by
  decide +kernel

theorem Yields.nextTerminal_mem {xs : List Symbol} {ks : List TokenKind} (h : Yields xs ks) :
    nextTerminal ks ∈ firsts starts xs := by
  induction h with
  | nil => exact mem_single.2 rfl
  | token => exact mem_single.2 rfl
  | part hr _ _ ihn ih =>
    exact nextTerminal_mem_andThen (mem_of_isSubset (isSubset_starts _ hr) ihn) ih

end Carrot.Grammar
