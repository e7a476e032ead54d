import Mathlib

/-! A program that carries out commands, and a specification that says what it replies. A choice stands for what the
specification leaves to the program, and some outcomes it leaves open altogether. -/
namespace Refinement

/-- What a specification says of a step: nothing, that the program stops, or how it goes on. -/
inductive Outcome (α : Type)
  | any
  | stop
  | ret (a : α)

namespace Outcome
variable {α β : Type}

def bind (o : Outcome α) (f : α → Outcome β) : Outcome β :=
  match o with
  | any => any
  | stop => stop
  | ret a => f a

def map (f : α → β) (o : Outcome α) : Outcome β := o.bind fun a => ret (f a)

end Outcome

section
variable {σ τ C R Ω : Type}

/-- The replies to several commands and the state after them, `none` if the program stops. -/
def run (step : C → σ → Option (R × σ)) : List C → σ → Option (List R × σ)
  | [],s => some ([],s)
  | c::cs,s => (step c s).bind fun r => (run step cs r.2).map fun q => (r.1::q.1,q.2)

/-- What the specification says of several commands, each with its choice. -/
def specRun (spec : Ω → C → τ → Outcome (R × τ)) : List (Ω × C) → τ → Outcome (List R × τ)
  | [],t => .ret ([],t)
  | (ω,c)::cs,t => (spec ω c t).bind fun r => (specRun spec cs r.2).map fun q => (r.1::q.1,q.2)

/-- The program did as the specification says, with the same replies and related states. -/
inductive Meets (rel : σ → τ → Prop) : Option (R × σ) → Outcome (R × τ) → Prop
  | any (x : Option (R × σ)) : Meets rel x .any
  | stop : Meets rel none .stop
  | ret (r : R) {s : σ} {t : τ} (h : rel s t) : Meets rel (some (r,s)) (.ret (r,t))

/-- Every step from related states does what the specification says for one of its choices. -/
def Refines (step : C → σ → Option (R × σ)) (spec : Ω → C → τ → Outcome (R × τ)) (rel : σ → τ → Prop) : Prop :=
  ∀ c s t, rel s t → ∃ ω, Meets rel (step c s) (spec ω c t)

variable {step : C → σ → Option (R × σ)} {spec : Ω → C → τ → Outcome (R × τ)} {rel : σ → τ → Prop} {s : σ} {t : τ}

/-- Where every step does what the specification says, so does every run. -/
theorem Refines.run (h : Refines step spec rel) (hs : rel s t) (cs : List C) :
    ∃ ωs : List Ω, ωs.length = cs.length ∧ Meets rel (run step cs s) (specRun spec (ωs.zip cs) t) := by
  induction cs generalizing s t with
  | nil => exact ⟨[],rfl,.ret [] hs⟩
  | cons c cs ih =>
    obtain ⟨ω,hω⟩ := h c s t hs
    rw [Refinement.run]
    generalize hx : step c s = x at hω
    generalize hy : spec ω c t = y at hω
    cases hω with
    | any x =>
      refine ⟨ω::List.replicate cs.length ω,by rw [List.length_cons,List.length_replicate,List.length_cons],?_⟩
      rw [List.zip_cons_cons,specRun,hy]
      exact .any _
    | stop =>
      refine ⟨ω::List.replicate cs.length ω,by rw [List.length_cons,List.length_replicate,List.length_cons],?_⟩
      rw [List.zip_cons_cons,specRun,hy]
      exact .stop
    | ret r hr =>
      obtain ⟨ωs,hlen,hrest⟩ := ih hr
      refine ⟨ω::ωs,by rw [List.length_cons,hlen,List.length_cons],?_⟩
      rw [List.zip_cons_cons,specRun,hy,Option.bind_some]
      dsimp only [Outcome.bind]
      generalize Refinement.run step cs _ = x at hrest ⊢
      generalize specRun spec (ωs.zip cs) _ = y at hrest ⊢
      cases hrest with
      | any x => exact .any _
      | stop => exact .stop
      | ret q hq => exact .ret _ hq

end
end Refinement
