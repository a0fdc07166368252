import PatternInference.Automaton
import PatternInference.Symbol
import PatternInference.Text.Lines

/-!
The text of an automaton: a header line with its counts and its initial state, a line for each
transition, a line for each accepting state. The symbol of a transition stands between the first and
the last space of its line, so it may hold spaces itself.
-/

namespace PatternInference

variable {α : Type} [PrintedSymbol α]

def Transition.print (t : Transition α) : List Char :=
  Numeral.digits t.source ++ ' ' :: PrintedSymbol.print t.symbol ++ ' ' :: Numeral.digits t.target

namespace Dump

def header (d : Dump α) : List Char :=
  Numeral.digits d.stateCount ++ ' ' :: Numeral.digits d.transitions.length ++
    ' ' :: Numeral.digits d.initial ++ ' ' :: Numeral.digits d.accepting.length

def printLines (d : Dump α) : List (List Char) :=
  d.header :: (d.transitions.map Transition.print ++ d.accepting.map Numeral.digits)

def print (d : Dump α) : List Char := d.printLines.flatMap (· ++ ['\n'])

def wrong {β : Type} (line : Nat) (fault : Fault) : Except Error β :=
  .error (.invalid .dump (.line line fault))

def number (line : Nat) (field : Field) (text : List Char) : Except Error Nat :=
  match Numeral.count? text with
  | some n => .ok n
  | none => wrong line (.notNumber field text)

def state (stateCount line : Nat) (field : Field) (text : List Char) : Except Error Nat :=
  match number line field text with
  | .ok s => if s < stateCount then .ok s else wrong line (.outOfRange field s stateCount)
  | .error e => .error e

def acceptingState (stateCount line : Nat) (text : List Char) : Except Error Nat :=
  state stateCount line .acceptingState text

-- the ends are read before the symbol
def transition (stateCount line : Nat) (text : List Char) : Except Error (Transition α) :=
  match Text.cutFirst? ' ' text with
  | none => wrong line .notThreeFields
  | some (source, rest) =>
    match Text.cutLast? ' ' rest with
    | none => wrong line .notThreeFields
    | some (symbol, target) => do
      let source ← state stateCount line .source source
      let target ← state stateCount line .target target
      match PrintedSymbol.parse? symbol with
      | some symbol => return ⟨source, symbol, target⟩
      | none => wrong line (.badSymbol symbol)

/-- Reads `n` items from as many numbered lines. A line that is missing is number `due`. -/
def items {β : Type} (read : Nat → List Char → Except Error β) (missing : Fault) :
    Nat → Nat → List (List Char × Nat) → Except Error (List β × List (List Char × Nat))
  | 0, _, lines => return ([], lines)
  | _ + 1, due, [] => wrong due missing
  | n + 1, due, (text, line) :: lines => do
    let item ← read line text
    let (more, rest) ← items read missing n (due + 1) lines
    return (item :: more, rest)

def noMore (lines : List (List Char × Nat)) : Except Error Unit :=
  match lines.find? fun (text, _) => !text.isEmpty with
  | none => return ()
  | some (_, line) => wrong line .trailing

def ofNumbered : List (List Char × Nat) → Except Error (Dump α)
  | [] => wrong 1 .missingHeader
  | (header, line) :: lines =>
    match Text.fields ' ' header with
    | [states, transitions, initial, accepting] => do
      let stateCount ← number line .stateCount states
      let transitionCount ← number line .transitionCount transitions
      let initial ← state stateCount line .initialState initial
      let acceptingCount ← number line .acceptingCount accepting
      let (transitions, lines) ←
        items (transition stateCount) .missingTransition transitionCount (line + 1) lines
      let (accepting, lines) ←
        items (acceptingState stateCount) .missingAccepting acceptingCount (line + 1 + transitionCount) lines
      noMore lines
      return { stateCount, initial, transitions, accepting }
    | _ => wrong line .headerFields

def ofLines (lines : List (List Char)) : Except Error (Dump α) := ofNumbered (lines.zipIdx 1)

def parse (text : List Char) : Except Error (Dump α) := ofLines (Text.lines text)

end Dump
end PatternInference
