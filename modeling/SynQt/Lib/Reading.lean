/-! What a parser makes of the tokens that spell a known text. A token is read by what it says,
its `word`; where it stands is the parser's to keep and nobody's to prove. -/
namespace SynQt.Lib
universe u
variable {τ ω ε : Type u} {word : τ → ω} {α β : Type u}

theorem bind_ok {x : Except ε α} {f : α → Except ε β} {b : β} : (x >>= f) = .ok b ↔ ∃ a, x = .ok a ∧ f a = .ok b := by
  cases x with
  | error e =>
    refine ⟨fun h => ?_, fun ⟨a, ha, _⟩ => ?_⟩
    · cases h
    · cases ha
  | ok a =>
    refine ⟨fun h => ⟨a, rfl, h⟩, fun ⟨a', ha, hf⟩ => ?_⟩
    cases ha
    exact hf

/-- On any tokens that spell `words` and then `rest`, the parser comes back with a value that `Q` admits
and leaves tokens that spell `rest`. -/
def Reads (word : τ → ω) (p : StateT (List τ) (Except ε) α) (words rest : List ω) (Q : α → Prop) : Prop :=
  ∀ tokens, tokens.map word = words ++ rest → ∃ a tokens', p tokens = .ok (a, tokens') ∧ tokens'.map word = rest ∧ Q a

namespace Reads
variable {p : StateT (List τ) (Except ε) α} {f : α → StateT (List τ) (Except ε) β} {words words' rest : List ω}
  {Q : α → Prop} {R : β → Prop}

theorem pure {a : α} (h : Q a) : Reads word (ε := ε) (Pure.pure a) [] rest Q := by
  intro tokens htokens
  exact ⟨a, tokens, rfl, htokens, h⟩

theorem bind (h : Reads word p words (words' ++ rest) Q) (h' : ∀ a, Q a → Reads word (f a) words' rest R) :
    Reads word (p >>= f) (words ++ words') rest R := by
  intro tokens htokens
  rw [List.append_assoc] at htokens
  obtain ⟨a, tokens', hp, hleft, ha⟩ := h tokens htokens
  obtain ⟨b, tokens'', hf, hleft', hb⟩ := h' a ha tokens' hleft
  refine ⟨b, tokens'', ?_, hleft', hb⟩
  rw [← hf]
  show (p tokens >>= fun r => f r.1 r.2) = f a tokens'
  rw [hp]
  rfl

theorem cons {w : ω} (h : Reads word p [w] (words' ++ rest) Q) (h' : ∀ a, Q a → Reads word (f a) words' rest R) :
    Reads word (p >>= f) (w :: words') rest R := bind h h'

theorem mono {Q' : α → Prop} (h : Reads word p words rest Q) (himp : ∀ a, Q a → Q' a) : Reads word p words rest Q' := by
  intro tokens htokens
  obtain ⟨a, tokens', hp, hleft, ha⟩ := h tokens htokens
  exact ⟨a, tokens', hp, hleft, himp a ha⟩

/-- A parser that only looks leaves the text to the one after it. -/
theorem look (h : Reads word p [] (words ++ rest) Q) (h' : ∀ a, Q a → Reads word (f a) words rest R) :
    Reads word (p >>= f) words rest R := bind h h'

end Reads
end SynQt.Lib
