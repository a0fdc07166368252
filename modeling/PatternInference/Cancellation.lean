import PatternInference.Error

/-!
Calls can be asked to stop. A call that stops early still leaves a state behind, so its result is an
`Outcome`: that state, and the error if there is one.
-/

namespace PatternInference

structure Outcome (σ : Type) where
  state : σ
  error? : Option Error
deriving DecidableEq

namespace Outcome

variable {σ : Type}

def done (s : σ) : Outcome σ := ⟨s, none⟩

def failed (s : σ) (e : Error) : Outcome σ := ⟨s, some e⟩

def andThen (o : Outcome σ) (next : σ → Outcome σ) : Outcome σ :=
  match o.error? with
  | none => next o.state
  | some _ => o

def toExcept (o : Outcome σ) : Except Error σ :=
  match o.error? with
  | none => .ok o.state
  | some e => .error e

end Outcome

/-- When a call that reads items is asked to stop, if ever; `atEnd` is while it asks for one more item. -/
inductive Interrupt where
  | never
  | atStart
  | onItem (k : Nat)
  | atEnd
deriving DecidableEq

def Interrupt.ofBool (cancelled : Bool) : Interrupt := if cancelled then atStart else never

def Interrupt.next : Interrupt → Interrupt
  | onItem (k + 1) => onItem k
  | it => it

def Interrupt.accept {ι : Type} (fault? : ι → Option Error) : Interrupt → List ι → List ι × Option Error
  | _, [] => ([], none)
  | atStart, _ :: _ => ([], some .cancelled)
  | onItem 0, _ :: _ => ([], some .cancelled)
  | it, x :: xs =>
    match fault? x with
    | some e => ([], some e)
    | none =>
      let (front, e) := accept fault? it.next xs
      (x :: front, e)

structure Handles where
  flagOf : List Nat
  raised : List Bool
deriving DecidableEq

namespace Handles

def fresh : Handles := ⟨[0], [false]⟩

def add (h : Handles) : Handles :=
  ⟨h.flagOf ++ [h.raised.length], h.raised ++ [false]⟩

def share? (h : Handles) (i : Nat) : Option Handles :=
  h.flagOf[i]?.map fun flag => { h with flagOf := h.flagOf ++ [flag] }

def cancel? (h : Handles) (i : Nat) : Option Handles :=
  h.flagOf[i]?.map fun flag => { h with raised := h.raised.set flag true }

def isCancelled? (h : Handles) (i : Nat) : Option Bool :=
  h.flagOf[i]?.bind (h.raised[·]?)

def states (h : Handles) : List Bool :=
  h.flagOf.map fun flag => h.raised[flag]?.getD false

end Handles

def checkCancelled (cancelled : Bool) : Except Error Unit :=
  if cancelled then .error .cancelled else .ok ()

end PatternInference
