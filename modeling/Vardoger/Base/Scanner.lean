import Mathlib.Data.List.Basic

/-!
# Scanners

A scanner is a loop that takes one token after the other from the front of a list, until there is
none left. The loop is run with a bound on its rounds, so a result means that it has ended. It
ends when every token takes something away, and it reads back what is written token by token.
-/

namespace Vardoger.Scanner

variable {α β γ : Type*}

/-- The tokens from the front on, if the loop ends within so many rounds. -/
def scan (next : List α → Option (β × List α)) : (fuel : ℕ) → List α → Option (List β)
  | 0, _ => none
  | fuel + 1, x =>
      match next x with
      | none => some []
      | some (token, rest) => (scan next fuel rest).map (token :: ·)

variable {next : List α → Option (β × List α)}

theorem scan_end {fuel : ℕ} {x : List α} (h : next x = none) :
    scan next (fuel + 1) x = some [] := by
  rw [scan, h]

theorem scan_token {fuel : ℕ} {x rest : List α} {token : β} (h : next x = some (token, rest)) :
    scan next (fuel + 1) x = (scan next fuel rest).map (token :: ·) := by
  rw [scan, h]

/-- A loop ends when each of its rounds takes something away. -/
theorem exists_scan_eq_some
    (hshrinks : ∀ x token rest, next x = some (token, rest) → rest.length < x.length)
    {fuel : ℕ} {x : List α} (hfuel : x.length < fuel) :
    ∃ tokens, scan next fuel x = some tokens := by
  induction fuel generalizing x with
  | zero => omega
  | succ fuel ih =>
    cases hnext : next x with
    | none => exact ⟨[], scan_end hnext⟩
    | some token =>
      obtain ⟨tokens, htokens⟩ := ih (Nat.lt_of_lt_of_le (hshrinks _ _ _ hnext) (by omega))
      rw [scan_token hnext, htokens]
      exact ⟨_, rfl⟩

/-- There are no more tokens than there is text. -/
theorem length_tokens_le
    (hshrinks : ∀ x token rest, next x = some (token, rest) → rest.length < x.length)
    {fuel : ℕ} {x : List α} {tokens : List β} (h : scan next fuel x = some tokens) :
    tokens.length ≤ x.length := by
  induction fuel generalizing x tokens with
  | zero => cases h
  | succ fuel ih =>
    cases hnext : next x with
    | none =>
      rw [scan_end hnext] at h
      cases h
      exact Nat.zero_le _
    | some token =>
      rw [scan_token hnext] at h
      obtain ⟨tokens, htokens, rfl⟩ := Option.map_eq_some_iff.mp h
      exact Nat.succ_le_of_lt (Nat.lt_of_le_of_lt (ih htokens) (hshrinks _ _ _ hnext))

/-- What is written piece by piece is read back piece by piece. -/
theorem scan_flatMap {write : γ → List α} {read : γ → β} {pieces : List γ} {rest : List α}
    (hpiece : ∀ piece ∈ pieces, ∀ x, next (write piece ++ x) = some (read piece, x))
    (hend : next rest = none) {fuel : ℕ} (hfuel : pieces.length < fuel) :
    scan next fuel (pieces.flatMap write ++ rest) = some (pieces.map read) := by
  induction pieces generalizing fuel with
  | nil =>
    obtain ⟨fuel, rfl⟩ := Nat.exists_eq_succ_of_ne_zero (by omega : fuel ≠ 0)
    exact scan_end hend
  | cons piece pieces ih =>
    obtain ⟨fuel, rfl⟩ := Nat.exists_eq_succ_of_ne_zero (by omega : fuel ≠ 0)
    have hrest := ih (fun piece hmem => hpiece piece (List.mem_cons_of_mem _ hmem))
      (Nat.lt_of_succ_lt_succ hfuel)
    rw [List.flatMap_cons, List.append_assoc, scan_token (hpiece piece List.mem_cons_self _), hrest]
    rfl

end Vardoger.Scanner
