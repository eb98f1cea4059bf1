import Foolscap.Machine

/-!
# Activations

A jump to an address on the stack either begins the activation of a routine or ends it.  Routines
end with pushing their return address and jumping to it at once; every other jump is a call.
-/

namespace Foolscap

namespace Machine

/-- What a step does to the nesting of activations. -/
inductive Turn where
  | stays | calls | returns
  deriving DecidableEq, Repr

/-- What the next step does to the nesting of activations. -/
def turn (code : Array Word) (m : Machine) : Turn :=
  if fetch? code m.ip = some (Int64.ofNat Opcode.js.code) then
    if fetch? code (m.ip - 1) = some (Int64.ofNat Opcode.lra.code) then .returns else .calls
  else .stays

/-- In so many steps, and in the same activation, a machine comes to where something holds for the
first time.  The steps of the routines that are called on the way count, but only their beginning
and their end are steps of the activation. -/
inductive Until (code : Array Word) : (Machine → Prop) → Nat → Machine → Machine → Prop
  | here {T : Machine → Prop} {m : Machine} (h : T m) : Until code T 0 m m
  | next {T : Machine → Prop} {n : Nat} {m m₁ m' : Machine} (hT : ¬ T m)
      (hturn : m.turn code = .stays) (hstep : m.step code = .running m₁)
      (rest : Until code T n m₁ m') : Until code T (n + 1) m m'
  | call {T : Machine → Prop} {k n : Nat} {m m₁ m₂ m₃ m' : Machine} (hT : ¬ T m)
      (hturn : m.turn code = .calls) (hstep : m.step code = .running m₁)
      (callee : Until code (fun m => m.turn code = .returns) k m₁ m₂)
      (hback : m₂.step code = .running m₃) (rest : Until code T n m₃ m') :
      Until code T (k + (n + 1) + 1) m m'

/-- The steps of an activation are steps of a run. -/
theorem Until.run {code : Array Word} {T : Machine → Prop} {n : Nat} {m m' : Machine}
    (h : Until code T n m m') : m.run code n = .running m' := by
  induction h with
  | here _ => rfl
  | next _ _ hstep _ ih =>
    rw [run_succ, hstep]
    exact ih
  | call _ _ hstep _ hback _ ih ih' =>
    rw [run_succ, hstep]
    dsimp only
    rw [run_add, ih]
    dsimp only
    rw [run_succ, hback]
    exact ih'

/-- What a machine comes to in the same activation, and in how many steps, if it can be told within
a number of them. -/
def until? (code : Array Word) : Nat → (Machine → Bool) → Machine → Option (Nat × Machine)
  | 0, _, _ => none
  | limit + 1, T, m =>
    if T m then some (0, m)
    else match m.turn code, m.step code with
      | .stays, .running m₁ => do
        let (n, m') ← until? code limit T m₁
        return (n + 1, m')
      | .calls, .running m₁ => do
        let (k, m₂) ← until? code limit (fun m => m.turn code = .returns) m₁
        match m₂.step code with
        | .running m₃ =>
          let (n, m') ← until? code limit T m₃
          return (k + (n + 1) + 1, m')
        | _ => none
      | _, _ => none

/-- What is computed within a limit are such steps, so a witness can be found by running the
machine. -/
theorem until_of_until? {code : Array Word} {limit : Nat} {T : Machine → Bool} {m m' : Machine}
    {n : Nat} (h : until? code limit T m = some (n, m')) :
    Until code (fun m => T m = true) n m m' := by
  induction limit generalizing T m n m' with
  | zero => cases h
  | succ limit ih =>
    rw [until?] at h
    split at h
    · next hT =>
      cases h
      exact .here hT
    · next hT =>
      split at h
      · next m₁ hturn hstep =>
        obtain ⟨⟨n', m₂⟩, hrest, heq⟩ := Option.bind_eq_some_iff.mp h
        cases heq
        exact .next hT hturn hstep (ih hrest)
      · next m₁ hturn hstep =>
        obtain ⟨⟨k, m₂⟩, hcallee, h⟩ := Option.bind_eq_some_iff.mp h
        dsimp only at h
        split at h
        · next m₃ hback =>
          obtain ⟨⟨n', m₄⟩, hrest, heq⟩ := Option.bind_eq_some_iff.mp h
          cases heq
          have hcallee := ih hcallee
          simp only [decide_eq_true_eq] at hcallee
          exact .call hT hturn hstep hcallee hback (ih hrest)
        · cases h
      · cases h

end Machine

end Foolscap
