import Carrot.Token.Lexer
import Mathlib.Data.List.DropRight
import Mathlib.Order.Defs.PartialOrder

/-! # Places of tokens

Places are ordered by line and then by column. Reading on moves forward in this order,
so the tokens of a text stand at places that increase strictly. A place counts the line
feeds before it and the characters since the last of them.
-/

namespace Carrot

namespace Position

/-- The order in which a text is read. -/
instance : LT Position where
  lt p q := p.line < q.line ∨ p.line = q.line ∧ p.column < q.column

instance : LE Position where
  le p q := p.line < q.line ∨ p.line = q.line ∧ p.column ≤ q.column

theorem lt_iff {p q : Position} :
    p < q ↔ p.line < q.line ∨ p.line = q.line ∧ p.column < q.column := Iff.rfl

theorem le_iff {p q : Position} :
    p ≤ q ↔ p.line < q.line ∨ p.line = q.line ∧ p.column ≤ q.column := Iff.rfl

instance : DecidableLT Position := fun _ _ => decidable_of_iff _ lt_iff.symm

instance : Preorder Position where
  le_refl p := by
    rw [le_iff]
    omega
  le_trans p q r hpq hqr := by
    rw [le_iff] at *
    omega
  lt_iff_le_not_ge p q := by
    rw [lt_iff, le_iff, le_iff]
    omega

theorem lt_next (p : Position) (c : Char) : p < p.next c := by
  rw [lt_iff, next]
  split
  · exact .inl (Int.lt_succ _)
  · exact .inr ⟨rfl, Int.lt_succ _⟩

theorem le_after (p : Position) (cs : List Char) : p ≤ p.after cs := by
  induction cs generalizing p with
  | nil => exact le_refl p
  | cons c cs ih => exact le_trans (le_of_lt (lt_next p c)) (ih _)

theorem lt_after_cons (p : Position) (c : Char) (cs : List Char) : p < p.after (c :: cs) :=
  lt_of_lt_of_le (lt_next p c) (le_after _ cs)

/-- The place behind the first characters of a text, by counting. -/
def behind (before : List Char) : Position :=
  ⟨1 + before.count '\n', 1 + (before.rtakeWhile (· ≠ '\n')).length⟩

theorem after_start (before : List Char) : start.after before = behind before := by
  induction before using List.reverseRecOn with
  | nil => rfl
  | append_singleton cs c ih =>
    rw [after_append, ih, after_cons, after_nil, next]
    split
    · next hc =>
      rw [hc, behind, behind, List.rtakeWhile_concat_neg _ _ _ (by simp)]
      simp [Int.add_assoc]
    · next hc =>
      rw [behind, behind, List.rtakeWhile_concat_pos _ _ _ (by simpa using hc)]
      simp [Int.add_assoc, hc]

end Position

namespace Tokens

theorem le_position_of_mem_scan {p : Position} {cs : List Char} :
    ∀ t ∈ (scan p cs).tokens, p ≤ t.position := by
  fun_induction scan p cs with
  | case1 | case2 => simp
  | case3 p c cs l n _ text rest ih =>
    intro t ht
    rcases List.mem_append.1 ht with ht | ht
    · cases l with
      | token k =>
        rw [List.mem_singleton.1 ht]
      | layout => cases ht
    · exact le_trans (Position.le_after p text) (ih t ht)

/-- The tokens of a text stand one behind the other. -/
theorem pairwise_scan (p : Position) (cs : List Char) :
    (scan p cs).tokens.Pairwise fun t u => t.position < u.position := by
  fun_induction scan p cs with
  | case1 | case2 => exact .nil
  | case3 p c cs l n _ text rest ih =>
    refine List.pairwise_append.2 ⟨?_, ih, ?_⟩
    · cases l <;> simp [Lexeme.tokens]
    · intro t ht u hu
      have hbehind := le_position_of_mem_scan u hu
      cases l with
      | token k =>
        rw [List.mem_singleton.1 ht]
        exact lt_of_lt_of_le (Position.lt_after_cons p c _) hbehind
      | layout => cases ht

/-- A token is written in the text at its place. -/
theorem exists_split_of_mem_scan {p : Position} {cs : List Char} {t : Token}
    (ht : t ∈ (scan p cs).tokens) :
    ∃ before tail, cs = before ++ t.text.toList ++ tail ∧ t.position = p.after before := by
  fun_induction scan p cs with
  | case1 | case2 => cases ht
  | case3 p c cs l n _ text rest ih =>
    have hsplit : c :: cs = text ++ cs.drop n := by simp [text]
    rcases List.mem_append.1 ht with ht | ht
    · cases l with
      | token k =>
        rw [List.mem_singleton.1 ht]
        exact ⟨[], cs.drop n, by simpa using hsplit, rfl⟩
      | layout => cases ht
    · obtain ⟨before, tail, hcs, hp⟩ := ih ht
      refine ⟨text ++ before, tail, ?_, ?_⟩
      · rw [hsplit, hcs]
        simp only [List.append_assoc]
      · rw [hp, Position.after_append]

end Tokens

end Carrot
