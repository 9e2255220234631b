import Mathlib.Data.List.Basic

/-!
# Stream ciphers

A stream cipher moves from state to state and masks each byte of a text with a byte of the state it
has moved to. Encryption is decryption, and a text may be given in pieces as long as the state is
kept between them, also when it is stored away and loaded again.
-/

namespace Keystream

variable {σ γ : Type*} (next : σ → σ) (out : σ → UInt8)

/-- The masked text and the state behind it. -/
def crypt (s : σ) : List UInt8 → List UInt8 × σ
  | [] => ([], s)
  | b :: x => ((b ^^^ out (next s)) :: (crypt (next s) x).1, (crypt (next s) x).2)

/-- A text in pieces, with the state in a store between them: each masked piece with what is stored
behind it. -/
def cryptStored (save : σ → γ) (load : γ → σ) (g : γ) : List (List UInt8) → List (List UInt8 × γ)
  | [] => []
  | x :: xs =>
    let r := crypt next out (load g) x
    (r.1, save r.2) :: cryptStored save load (save r.2) xs

variable {next out}

theorem length_crypt (s : σ) (x : List UInt8) : (crypt next out s x).1.length = x.length := by
  induction x generalizing s with
  | nil => rfl
  | cons b x ih => rw [crypt, List.length_cons, List.length_cons, ih]

theorem crypt_append (s : σ) (x y : List UInt8) :
    crypt next out s (x ++ y) =
      ((crypt next out s x).1 ++ (crypt next out (crypt next out s x).2 y).1,
        (crypt next out (crypt next out s x).2 y).2) := by
  induction x generalizing s with
  | nil => rfl
  | cons b x ih => rw [List.cons_append, crypt, crypt, ih, List.cons_append]

/-- Masking twice from the same state gives the text back. -/
theorem crypt_crypt (s : σ) (x : List UInt8) :
    (crypt next out s (crypt next out s x).1).1 = x := by
  induction x generalizing s with
  | nil => rfl
  | cons b x ih => rw [crypt, crypt, ih, UInt8.xor_assoc, UInt8.xor_self, UInt8.xor_zero]

/-- What every move keeps holds behind a text. -/
theorem crypt_keeps {P : σ → Prop} (hnext : ∀ s, P s → P (next s)) {s : σ} (hs : P s)
    (x : List UInt8) : P (crypt next out s x).2 := by
  induction x generalizing s with
  | nil => exact hs
  | cons b x ih => exact ih (hnext s hs)

section Stored

variable {save : σ → γ} {load : γ → σ} (hload : ∀ s, load (save s) = s)
include hload

/-- The pieces together are the text as a whole. -/
theorem cryptStored_flatten (s : σ) (xs : List (List UInt8)) :
    ((cryptStored next out save load (save s) xs).map Prod.fst).flatten =
      (crypt next out s xs.flatten).1 := by
  induction xs generalizing s with
  | nil => rfl
  | cons x xs ih =>
    rw [cryptStored, List.map_cons, List.flatten_cons, List.flatten_cons, crypt_append, hload, ih]

/-- What every move keeps holds of all that is stored. -/
theorem cryptStored_keeps {P : σ → Prop} (hnext : ∀ s, P s → P (next s)) {s : σ} (hs : P s)
    {xs : List (List UInt8)} {p : List UInt8 × γ}
    (hp : p ∈ cryptStored next out save load (save s) xs) : ∃ s', P s' ∧ p.2 = save s' := by
  induction xs generalizing s with
  | nil => cases hp
  | cons x xs ih =>
    rw [cryptStored, hload] at hp
    have hkept : P (crypt next out s x).2 := crypt_keeps hnext hs x
    rcases List.mem_cons.mp hp with rfl | hp
    · exact ⟨_, hkept, rfl⟩
    · exact ih hkept hp

end Stored

end Keystream
