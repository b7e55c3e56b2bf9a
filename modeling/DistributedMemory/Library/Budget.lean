import DistributedMemory.Library.Run
import Mathlib.Algebra.BigOperators.Group.Finset.Piecewise
import Mathlib.Data.Finset.Max
import Mathlib.Data.List.Perm.Basic
import Mathlib.Algebra.Order.Ring.Nat
import Mathlib.Logic.Function.Basic

/-!
# What a run costs

Every action has a price and an income, and a state has a balance.  When each step
takes its price from the balance and puts its income into it, so does a run as a
whole.  Where the income depends on the state it is the growth of a budget.
-/

namespace DistributedMemory.Library

universe u v w

section Run

variable {State : Type u} {Action : Type v}
  {step : State → Action → Option State} {ok : State → Action → Prop}

theorem run_balance {I : State → Prop} (balance : State → Nat)
    (price income : Action → Nat)
    (hstep : ∀ s a s', I s → ok s a → step s a = some s' →
      I s' ∧ balance s' + price a = balance s + income a)
    {s t : State} {actions : List Action} (hinit : I s)
    (hok : Along step ok s actions) (hrun : run step s actions = some t) :
    balance t + (actions.map price).sum =
      balance s + (actions.map income).sum := by
  induction actions generalizing s with
  | nil =>
      cases hrun
      rfl
  | cons a rest ih =>
      obtain ⟨s', hs', hrest⟩ := run_cons.mp hrun
      rw [along_cons_of_step hs'] at hok
      obtain ⟨hinit', hpays⟩ := hstep s a s' hinit hok.1 hs'
      have hlater := ih hinit' hok.2 hrest
      rw [List.map_cons, List.map_cons, List.sum_cons, List.sum_cons]
      omega

/-- Where no step spends more than its income and the budget it opens, neither does
a run. -/
theorem run_afford {I : State → Prop} (balance budget : State → Nat)
    (price income : Action → Nat)
    (hstep : ∀ s a s', I s → ok s a → step s a = some s' → I s' ∧
      balance s' + price a + budget s ≤ balance s + income a + budget s')
    {s t : State} {actions : List Action} (hinit : I s)
    (hok : Along step ok s actions) (hrun : run step s actions = some t) :
    balance t + (actions.map price).sum + budget s ≤
      balance s + (actions.map income).sum + budget t := by
  induction actions generalizing s with
  | nil =>
      cases hrun
      simp
  | cons a rest ih =>
      obtain ⟨s', hs', hrest⟩ := run_cons.mp hrun
      rw [along_cons_of_step hs'] at hok
      obtain ⟨hinit', hpays⟩ := hstep s a s' hinit hok.1 hs'
      have hlater := ih hinit' hok.2 hrest
      rw [List.map_cons, List.map_cons, List.sum_cons, List.sum_cons]
      omega

theorem run_budget {I : State → Prop} (balance budget : State → Nat)
    (price : Action → Nat)
    (hstep : ∀ s a s', I s → ok s a → step s a = some s' →
      I s' ∧ balance s' + price a + budget s ≤ balance s + budget s')
    {s t : State} {actions : List Action} (hinit : I s)
    (hok : Along step ok s actions) (hrun : run step s actions = some t) :
    balance t + (actions.map price).sum + budget s ≤ balance s + budget t := by
  have h := run_afford balance budget price (fun _ => 0) hstep hinit hok hrun
  simpa using h

end Run

/-! ## Sums over the parts of a state -/

theorem sum_map_ite {α : Type u} (items : List α) (p : α → Bool) (k : Nat) :
    (items.map fun a => if p a then k else 0).sum = k * items.countP p := by
  induction items with
  | nil => rfl
  | cons a rest ih =>
      rw [List.map_cons, List.sum_cons, ih, List.countP_cons]
      cases p a with
      | true => simp [Nat.mul_add, Nat.add_comm]
      | false => simp

section Sums

variable {α : Type u} {β : Type w} [DecidableEq α]

theorem sum_map_erase {items : List α} {a : α} (h : a ∈ items) (f : α → Nat) :
    ((items.erase a).map f).sum + f a = (items.map f).sum := by
  rw [((List.perm_cons_erase h).map f).sum_nat, List.map_cons, List.sum_cons,
    Nat.add_comm]

theorem sum_map_update {items : List α} (hnodup : items.Nodup) {a : α}
    (h : a ∈ items) (f : β → Nat) (part : α → β) (x : β) :
    (items.map fun b => f (Function.update part a x b)).sum + f (part a) =
      (items.map fun b => f (part b)).sum + f x := by
  have hothers : ∀ b ∈ items.erase a,
      f (Function.update part a x b) = f (part b) := by
    intro b hb
    rw [Function.update_of_ne ((hnodup.mem_erase_iff.mp hb).1)]
  have hsame := congrArg List.sum (List.map_congr_left hothers)
  have hnew := sum_map_erase h fun b => f (Function.update part a x b)
  have hold := sum_map_erase h fun b => f (part b)
  simp only [Function.update_self] at hnew
  omega

/-- Where two functions differ at one place only, so do their sums. -/
theorem sum_changes {items : Finset α} {f g : α → Nat} {a : α} {x y : Nat}
    (ha : a ∈ items)
    (h : ∀ b, f b + (if b = a then x else 0) = g b + if b = a then y else 0) :
    ∑ b ∈ items, f b + x = ∑ b ∈ items, g b + y := by
  have hsum := Finset.sum_congr rfl fun b (_ : b ∈ items) => h b
  simpa [Finset.sum_add_distrib, ha] using hsum

end Sums

/-! ## What spreads to everybody above -/

theorem sum_above {α : Type u} [LinearOrder α] (items : Finset α) (f : Nat → Nat) :
    ∑ a ∈ items, f (items.filter (a < ·)).card =
      ∑ j ∈ Finset.range items.card, f j := by
  induction items using Finset.induction_on_min with
  | empty => rfl
  | insert a rest hmin ih =>
      have hfresh : a ∉ rest := fun h => lt_irrefl a (hmin a h)
      have hfirst : (insert a rest).filter (a < ·) = rest := by
        rw [Finset.filter_insert, if_neg (lt_irrefl a)]
        exact Finset.filter_true_of_mem hmin
      have hothers : ∑ b ∈ rest, f ((insert a rest).filter (b < ·)).card =
          ∑ b ∈ rest, f (rest.filter (b < ·)).card := by
        refine Finset.sum_congr rfl fun b hb => ?_
        rw [Finset.filter_insert, if_neg (lt_asymm (hmin b hb))]
      rw [Finset.sum_insert hfresh, hfirst, hothers, ih,
        Finset.card_insert_of_notMem hfresh, Finset.sum_range_succ, Nat.add_comm]

/-- What a call costs that costs `extra` itself and reaches everybody above, with
`each` for reaching one of them, where `h` are above; the topmost one costs `top`. -/
def spread (top extra each : Nat) : Nat → Nat
  | 0 => top
  | h + 1 => 2 ^ h * (top + extra + 2 * each) - each

theorem sum_spread (top extra each h : Nat) :
    extra + ∑ j ∈ Finset.range (h + 1), (each + spread top extra each j) =
      spread top extra each (h + 1) := by
  induction h with
  | zero =>
      rw [Nat.zero_add, Finset.sum_range_one]
      simp only [spread, Nat.pow_zero, Nat.one_mul]
      omega
  | succ h ih =>
      have hpos : each ≤ 2 ^ h * (top + extra + 2 * each) :=
        Nat.le_trans (by omega) (Nat.le_mul_of_pos_left _ (Nat.two_pow_pos h))
      have hdouble : 2 ^ (h + 1) * (top + extra + 2 * each) =
          2 ^ h * (top + extra + 2 * each) + 2 ^ h * (top + extra + 2 * each) := by
        rw [Nat.pow_succ, Nat.mul_two, Nat.add_mul]
      rw [Finset.sum_range_succ, ← Nat.add_assoc, ih]
      simp only [spread, hdouble]
      omega

end DistributedMemory.Library
