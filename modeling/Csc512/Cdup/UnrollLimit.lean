import Csc512.Cdup.Dag
import Csc512.Cdup.InterpCongruence

/-!
# The bound of the loops

A loop that reaches its bound is left, and a flag is raised; nothing else depends on the bound. So a
run that ends without the flag is the run with any greater bound, too. The amount of fuel matters as
little: a run that does not run out of fuel is the run with any more fuel.

## Main results

* `Finishes.unique` — how a run ends does not depend on the fuel
* `finishes_of_not_capped` — nor on the bound, unless the flag is raised
-/

namespace Csc512

open Exec

/-! ### The flag -/

/-- The bound of a loop was reached. -/
def Capped (s : VmState) : Prop := s.unrollCapped = true

theorem agreeUntil_traced {α : Type} {x y : Vm α} (h : AgreeUntil Capped x y) :
    AgreeUntil Capped (traced x) (traced y) := by
  intro s
  obtain ⟨hup, h⟩ := h { s with derefs := [] }
  rw [traced_apply, traced_apply]
  exact ⟨hup, h.imp_right fun h => by rw [h]⟩

/-- A greater bound changes nothing until the flag is raised. -/
theorem vmCongruence_until : VmCongruence fun x y => AgreeUntil Capped x y :=
  vmCongruence_of_modify_stop (congruence_until Stop.outOfFuel Capped) (AgreeUntil.refl fun _ hs => hs)
    (fun _ hf => AgreeUntil.refl fun s hs => (hf s).1.trans hs) agreeUntil_traced

theorem agreeUnless_traced {α : Type} {x y : Vm α} (h : AgreeUnless .outOfFuel x y) :
    AgreeUnless .outOfFuel (traced x) (traced y) := by
  intro s
  rw [traced_apply, traced_apply]
  rcases h { s with derefs := [] } with h | h
  · exact .inl (by rw [h]; rfl)
  · exact .inr (by rw [h])

/-- More fuel changes nothing unless the fuel runs out. -/
theorem vmCongruence_unless : VmCongruence fun x y => AgreeUnless .outOfFuel x y :=
  vmCongruence_of_modify_stop (congruence_unless Stop.outOfFuel) (AgreeUnless.refl _)
    (fun _ _ => AgreeUnless.refl _) agreeUnless_traced

/-! ### How a run ends -/

/-- A call of a function in a fresh state ends in this way, with enough fuel. -/
def Finishes (U : CharTable) (M : MathLib) (P : Program) (lists : List (List Value)) (name : Text)
    (args : List (Text × Value)) (r : Except Stop Value × VmState) : Prop :=
  ∃ fuel, callFn U M P fuel name args { lists } = r ∧ r.1 ≠ .error .outOfFuel

variable {U : CharTable} {M : MathLib} {segments : List Segment} {lists : List (List Value)}
  {name : Text} {args : List (Text × Value)}

theorem agreeUnless_callFn (P : Program) {fuel fuel' : ℕ} (h : fuel ≤ fuel') :
    AgreeUnless .outOfFuel (callFn U M P fuel name args) (callFn U M P fuel' name args) :=
  related_callFn vmCongruence_unless U M (fun _ _ _ _ _ _ _ _ => AgreeUnless.refl _)
    (fun _ _ => .refl P (AgreeUnless.refl _))
    ⟨h, fun y _ => AgreeUnless.of_stop y⟩ name args

/-- **The amount of fuel** does not matter, as long as it is enough. -/
theorem Finishes.unique {P : Program} {r r' : Except Stop Value × VmState}
    (h : Finishes U M P lists name args r) (h' : Finishes U M P lists name args r') : r = r' := by
  obtain ⟨fuel, rfl, hr⟩ := h
  obtain ⟨fuel', rfl, hr'⟩ := h'
  rcases Nat.le_total fuel fuel' with hle | hle
  · exact ((agreeUnless_callFn P hle _).resolve_left hr).symm
  · exact (agreeUnless_callFn P hle _).resolve_left hr'

theorem agreeUntil_callFn {m m' : ℕ} (h : m ≤ m') (fuel : ℕ) :
    AgreeUntil Capped (callFn U M ⟨segments, m⟩ fuel name args)
      (callFn U M ⟨segments, m'⟩ fuel name args) := by
  have hbounds : ∀ I I', Bounds (fun x y => AgreeUntil Capped x y) ⟨segments, m⟩ ⟨segments, m'⟩
      (vmHandlers U M ⟨segments, m⟩ I) (vmHandlers U M ⟨segments, m⟩ I') :=
    fun _ _ => ⟨rfl, h, fun y _ s => ⟨fun _ => rfl, .inl rfl⟩⟩
  exact related_callFn vmCongruence_until U M
    (fun _ _ _ _ _ _ _ _ => AgreeUntil.refl fun _ hs => hs) hbounds
    (.refl (AgreeUntil.refl fun _ hs => hs) fuel) name args

/-- **The bound of the loops** does not matter, as long as none of them reaches it. -/
theorem finishes_iff_of_not_capped {m m' : ℕ} (hle : m ≤ m') {r : Except Stop Value × VmState}
    (hr : Finishes U M ⟨segments, m⟩ lists name args r) (hcap : r.2.unrollCapped = false)
    (r' : Except Stop Value × VmState) :
    Finishes U M ⟨segments, m'⟩ lists name args r' ↔ r' = r := by
  obtain ⟨fuel, hrun, hfuel⟩ := hr
  have hagree : callFn U M ⟨segments, m'⟩ fuel name args { lists } = r := by
    rcases (agreeUntil_callFn hle fuel _).2 with hup | h
    · rw [hrun, Capped, hcap] at hup
      cases hup
    · exact h.trans hrun
  refine ⟨fun h => h.unique ⟨fuel, hagree, hfuel⟩, ?_⟩
  rintro rfl
  exact ⟨fuel, hagree, hfuel⟩

/-- A function that counts its parameter down, and returns it. -/
def returnCountdown : List Segment :=
  let n : Expr := .name (lit "n")
  [{ id := 0, parent := 0, type := .root, name := lit "root", scopePath := lit "root", head := none },
   { id := 1, parent := 0, type := .function, name := lit "f", scopePath := lit "root.f",
     head := some (lit "int f(int n) {}"),
     stmts := [{ raw := lit "while (n) {}", kind := .loopHead, rNames := [lit "n"], expr := some n },
               { raw := lit "return n;", kind := .control, rNames := [lit "n"],
                 expr := some n }] },
   { id := 2, parent := 1, type := .loop, name := lit "loop_1", scopePath := lit "root.f.loop_1",
     head := some (lit "while (n) {}"),
     stmts := [{ raw := lit "n--;", kind := .assign, lName := some (lit "n"),
                 rNames := [lit "n"], expr := some (.step .postDec n) }] }]

/-- A call of that function, with loops of at most three rounds. -/
def callCountdown (M : MathLib) (n : ℤ) : Except Stop Value × VmState :=
  callFn .ascii M ⟨returnCountdown, 3⟩ 4 (lit "f") [(lit "n", .int n)] { lists := [] }

theorem finishes_countdown : ∃ r, r.1 = .ok (.int 0) ∧ r.2.trace.length = 6 ∧
    Finishes .ascii ⟨fun _ _ => .error .valueError⟩ ⟨returnCountdown, 100⟩ [] (lit "f")
      [(lit "n", .int 2)] r := by
  refine ⟨callCountdown ⟨fun _ _ => .error .valueError⟩ 2, by decide +kernel, by decide +kernel, ?_⟩
  refine (finishes_iff_of_not_capped (m := 3) (by decide) ⟨4, rfl, ?_⟩ ?_ _).mpr rfl
  · rw [show (callFn .ascii _ _ 4 (lit "f") _ _).1 = .ok (.int 0) from by decide +kernel]
    nofun
  · decide +kernel

/-- With three rounds the loop reaches its bound, and the flag says so. -/
example : (callCountdown ⟨fun _ _ => .error .valueError⟩ 5).1 = .ok (.int 2) ∧
    (callCountdown ⟨fun _ _ => .error .valueError⟩ 5).2.unrollCapped = true := by decide +kernel

end Csc512
