import Mathlib.Data.Nat.Notation
import Mathlib.Tactic.Basic

/-!
# Loops over a list, with an early exit

`forEach body items` runs the body on each item in turn and stops at the first
one that returns `false`.  `forEach_rule` is the invariant rule; the invariant
may mention the items that are still to come, and a second assertion describes
the state a failing body leaves behind.
-/

namespace Shitix

open List

variable {σ ι : Type*}

/-- Run the body on each item, until it returns `false`. -/
def forEach (body : ι → σ → Bool × σ) : List ι → σ → Bool × σ
  | [], state => (true, state)
  | item :: rest, state =>
    match body item state with
    | (true, next) => forEach body rest next
    | (false, next) => (false, next)

/-- An assertion about the outcome of a body: one for success, one for failure. -/
structure Outcome (Done Failed : σ → Prop) (result : Bool × σ) : Prop where
  done : result.1 = true → Done result.2
  failed : result.1 = false → Failed result.2

namespace Outcome

variable {Done Failed P : σ → Prop} {result : Bool × σ} {state : σ}

theorem of_done (h : Done state) : Outcome Done Failed (true, state) :=
  ⟨fun _ => h, nofun⟩

theorem of_failed (h : Failed state) : Outcome Done Failed (false, state) :=
  ⟨fun htrue => (nomatch htrue), fun _ => h⟩

/-- What holds in both cases. -/
theorem both (h : Outcome Done Failed result) (hdone : ∀ state, Done state → P state)
    (hfailed : ∀ state, Failed state → P state) : P result.2 := by
  cases hresult : result.1 with
  | true => exact hdone _ (h.done hresult)
  | false => exact hfailed _ (h.failed hresult)

end Outcome

variable {body : ι → σ → Bool × σ} {Failed : σ → Prop} {items : List ι} {state : σ} {n : ℕ}

/-- The invariant rule: `Inv rest` holds before the items `rest` are processed. -/
theorem forEach_rule (Inv : List ι → σ → Prop) (hinv : Inv items state)
    (hbody : ∀ item rest state, item :: rest <:+ items → Inv (item :: rest) state →
      Outcome (Inv rest) Failed (body item state)) :
    Outcome (Inv []) Failed (forEach body items state) := by
  induction items generalizing state with
  | nil => exact Outcome.of_done hinv
  | cons item rest ih =>
    have hhere := hbody item rest state suffix_rfl hinv
    unfold forEach
    split
    · next next hnext =>
      rw [hnext] at hhere
      exact ih (hhere.done rfl) fun other rest' state' hsuffix =>
        hbody other rest' state' (hsuffix.trans (suffix_cons item rest))
    · next next hnext =>
      rw [hnext] at hhere
      exact Outcome.of_failed (hhere.failed rfl)

/-- What every round keeps, whether it fails or not, the loop keeps. -/
theorem forEach_keeps (Inv : σ → Prop) (hinv : Inv state)
    (hbody : ∀ item ∈ items, ∀ state, Inv state → Inv (body item state).2) :
    Inv (forEach body items state).2 := by
  have hloop : Outcome Inv Inv (forEach body items state) := by
    refine forEach_rule (fun _ => Inv) hinv ?_
    intro item rest state hsuffix hstate
    have hnext := hbody item (hsuffix.subset mem_cons_self) state hstate
    exact ⟨fun _ => hnext, fun _ => hnext⟩
  exact hloop.both (fun _ h => h) fun _ h => h

/-- The rule for a plain loop: an invariant over the items still to come. -/
theorem foldl_rule (Inv : List ι → σ → Prop) {body : σ → ι → σ} (hinv : Inv items state)
    (hbody : ∀ item rest state, item :: rest <:+ items → Inv (item :: rest) state →
      Inv rest (body state item)) : Inv [] (items.foldl body state) := by
  induction items generalizing state with
  | nil => exact hinv
  | cons item rest ih =>
    exact ih (hbody item rest state suffix_rfl hinv) fun other rest' state' hsuffix =>
      hbody other rest' state' (hsuffix.trans (suffix_cons item rest))

/-! ## Loops that count -/

theorem suffix_range {k : ℕ} {rest : List ℕ} (h : k :: rest <:+ range n) :
    k + 1 + rest.length = n ∧ k < n := by
  obtain ⟨before, hbefore⟩ := h
  have hlength := congrArg length hbefore
  have hget := congrArg (fun l => l[before.length]?) hbefore
  simp only [length_append, length_cons, length_range] at hlength
  simp only [getElem?_append_right (Nat.le_refl _), Nat.sub_self] at hget
  rw [getElem?_range (by omega)] at hget
  have := Option.some.inj hget
  omega

/-- The rule for a loop over `0 … n - 1`: `Inv k` holds before item `k`. -/
theorem forEach_range (Inv : ℕ → σ → Prop) {body : ℕ → σ → Bool × σ} (hinv : Inv 0 state)
    (hbody : ∀ k state, k < n → Inv k state → Outcome (Inv (k + 1)) Failed (body k state)) :
    Outcome (Inv n) Failed (forEach body (range n) state) := by
  refine forEach_rule (fun rest state => Inv (n - rest.length) state) ?_ ?_
  · simpa using hinv
  · intro k rest state hsuffix hk
    obtain ⟨hlength, hlt⟩ := suffix_range hsuffix
    rw [show n - rest.length = k + 1 by omega]
    rw [show n - (k :: rest).length = k by simp only [length_cons]; omega] at hk
    exact hbody k state hlt hk

/-- The rule for a plain loop over `first … first + count - 1`. -/
theorem foldl_range' (Inv : ℕ → σ → Prop) {body : σ → ℕ → σ} {first count : ℕ}
    (hinv : Inv first state) (hbody : ∀ k state, first ≤ k → k < first + count → Inv k state →
      Inv (k + 1) (body state k)) :
    Inv (first + count) ((range' first count).foldl body state) := by
  induction count generalizing first state with
  | zero => exact hinv
  | succ count ih =>
    rw [show first + (count + 1) = first + 1 + count by omega]
    refine ih (hbody first state (Nat.le_refl _) (by omega) hinv) fun k state hfirst hlast => ?_
    exact hbody k state (by omega) (by omega)

/-- The same from 0 on. -/
theorem foldl_range (Inv : ℕ → σ → Prop) {body : σ → ℕ → σ} (hinv : Inv 0 state)
    (hbody : ∀ k state, k < n → Inv k state → Inv (k + 1) (body state k)) :
    Inv n ((range n).foldl body state) := by
  rw [range_eq_range']
  have hloop : Inv (0 + n) _ := foldl_range' Inv hinv fun k state _ hlt => hbody k state (by omega)
  rwa [Nat.zero_add] at hloop

end Shitix
