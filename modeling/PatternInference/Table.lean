import PatternInference.Automaton

namespace PatternInference

namespace Table

variable {β : Type}

def put? (t : Array β) (i : Nat) (v : β) : Option (Array β) :=
  if h : i < t.size then some (t.set i v) else none

def slice? (t : Array Nat) (start stop : Nat) : Option (List Nat) :=
  if start ≤ stop ∧ stop ≤ t.size then some (t.extract start stop).toList else none

def scatter? (t : Array Nat) (entries : List (Nat × Nat)) : Option (Array Nat) :=
  entries.foldlM (fun t e => put? t e.1 e.2) t

theorem put?_eq_some_iff {t u : Array β} {i : Nat} {v : β} :
    put? t i v = some u ↔ ∃ h : i < t.size, t.set i v = u := by
  by_cases h : i < t.size <;> simp [put?, h]

end Table

structure Columns (α : Type) where
  sources : Array Nat
  targets : Array Nat
  symbols : Array α
  targets_size : targets.size = sources.size
  symbols_size : symbols.size = sources.size
deriving DecidableEq

namespace Columns

variable {α : Type}

def size (c : Columns α) : Nat := c.sources.size

def empty : Columns α := ⟨#[], #[], #[], rfl, rfl⟩

def rows (c : Columns α) : List (Transition α) :=
  List.zipWith (fun source (symbol, target) => ⟨source, symbol, target⟩) c.sources.toList
    (c.symbols.toList.zip c.targets.toList)

def push (c : Columns α) (t : Transition α) : Columns α where
  sources := c.sources.push t.source
  targets := c.targets.push t.target
  symbols := c.symbols.push t.symbol
  targets_size := by simp [c.targets_size]
  symbols_size := by simp [c.symbols_size]

def append (c : Columns α) (ts : List (Transition α)) : Columns α := ts.foldl push c

def truncate (c : Columns α) (length : Nat) : Columns α where
  sources := c.sources.take length
  targets := c.targets.take length
  symbols := c.symbols.take length
  targets_size := by simp [c.targets_size]
  symbols_size := by simp [c.symbols_size]

/-- The ends of row `t` are copied to row `i`; the symbols of the two rows change places. -/
def move? (c : Columns α) (i t : Nat) : Option (Columns α) :=
  if h : i < c.sources.size ∧ t < c.sources.size then
    have hi := h.1
    have ht := h.2
    have targets_i : i < c.targets.size := c.targets_size ▸ h.1
    have targets_t : t < c.targets.size := c.targets_size ▸ h.2
    have symbols_i : i < c.symbols.size := c.symbols_size ▸ h.1
    have symbols_t : t < c.symbols.size := c.symbols_size ▸ h.2
    some {
      sources := c.sources.set i c.sources[t]
      targets := c.targets.set i c.targets[t]
      symbols := c.symbols.swap i t
      targets_size := by simp [c.targets_size]
      symbols_size := by simp [c.symbols_size] }
  else none

-- `x.2` rows are kept so far
def scan? (keep? : Columns α → Nat → Option Bool) (x : Columns α × Nat) (t : Nat) :
    Option (Columns α × Nat) := do
  if ← keep? x.1 t then return (← x.1.move? x.2 t, x.2 + 1) else return x

def compact? (keep? : Columns α → Nat → Option Bool) (c : Columns α) : Option (Columns α) := do
  let x ← (List.range c.size).foldlM (scan? keep?) (c, 0)
  return x.1.truncate x.2

end Columns
end PatternInference
