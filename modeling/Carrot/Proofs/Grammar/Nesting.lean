import Carrot.Proofs.Grammar.Derivation
import Carrot.Proofs.Nesting

/-! # The brackets of a program

Each rule of the grammar opens and closes at most one pair of brackets of its own, so
the brackets of whatever the grammar derives are well nested.
-/

namespace Carrot

/-- The bracket that a kind of token is. -/
def TokenKind.bracket? : TokenKind → Option Char
  | .lparen => some '('
  | .rparen => some ')'
  | .lbrace => some '\x7b'
  | .rbrace => some '\x7d'
  | _ => none

/-- The brackets among some tokens. -/
def Token.brackets (ts : List Token) : List Char := ts.filterMap (·.kind.bracket?)

theorem Token.brackets_cons (t : Token) (ts : List Token) :
    brackets (t :: ts) = t.kind.bracket?.toList ++ brackets ts := by
  unfold brackets
  cases h : t.kind.bracket? <;> simp [h]

theorem Token.brackets_append (ts us : List Token) :
    brackets (ts ++ us) = brackets ts ++ brackets us := List.filterMap_append

theorem TokenKind.isBracket_of_bracket? {k : TokenKind} {c : Char} (h : k.bracket? = some c) :
    (Screening.closing? c).isSome ∨ Screening.isClosing c := by
  cases k <;> cases h <;> decide

theorem Token.isBracket_of_mem_brackets {ts : List Token} {c : Char} (h : c ∈ brackets ts) :
    (Screening.closing? c).isSome ∨ Screening.isClosing c := by
  obtain ⟨t, -, ht⟩ := List.mem_filterMap.1 h
  exact TokenKind.isBracket_of_bracket? ht

namespace Grammar

/-- The bracket that a symbol of a rule is; what a part stands for is left out. -/
def Symbol.bracket? : Symbol → Option Char
  | .token k => k.bracket?
  | .part _ => none

theorem nested_of_mem_rules {n : Nonterminal} {rhs : List Symbol} (h : ⟨n, rhs⟩ ∈ rules) :
    Nested (rhs.filterMap Symbol.bracket?) := by
  have hall : ∀ r ∈ rules,
      r.rhs.filterMap Symbol.bracket? ∈ [[], ['(', ')'], ['\x7b', '\x7d']] := by decide
  rcases List.mem_cons.1 (hall _ h) with h | h
  · exact h ▸ .nil
  · rcases List.mem_cons.1 h with h | h
    · exact h ▸ .single rfl
    · exact List.mem_singleton.1 h ▸ .single rfl

/-- Derived tokens change the open brackets as the symbols themselves do. -/
theorem openAfter_brackets_of_derives {xs : List Symbol} {ts : List Token} {vs : List Value}
    (h : Derives xs ts vs) (stack : List Char) :
    openAfter stack (Token.brackets ts) = openAfter stack (xs.filterMap Symbol.bracket?) := by
  induction h generalizing stack with
  | nil => rfl
  | @token k xs t ts vs hk _ ih =>
    have hsymbols : (Symbol.token k :: xs).filterMap Symbol.bracket? =
        k.bracket?.toList ++ xs.filterMap Symbol.bracket? := by
      rw [List.filterMap_cons]
      cases h : k.bracket? <;> simp [Symbol.bracket?, h]
    rw [Token.brackets_cons, hk, hsymbols, openAfter_append, openAfter_append]
    cases openAfter stack k.bracket?.toList with
    | none => rfl
    | some s => exact ih s
  | @part n rhs ts ws v xs us vs hr _ _ _ ihn ih =>
    rw [Token.brackets_append, openAfter_append, ihn, (nested_of_mem_rules hr).openAfter_eq]
    exact ih stack

theorem nested_of_derivesProgram {ts : List Token} {ds : List Decl} (h : DerivesProgram ts ds) :
    Nested (Token.brackets ts) := by
  rw [nested_iff fun _ => Token.isBracket_of_mem_brackets, openAfter_brackets_of_derives h]
  rfl

end Grammar

end Carrot
