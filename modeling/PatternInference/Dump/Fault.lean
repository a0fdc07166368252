namespace PatternInference.Dump

inductive Field where
  | stateCount
  | transitionCount
  | initialState
  | acceptingCount
  | source
  | target
  | acceptingState
deriving DecidableEq

def Field.name : Field → String
  | stateCount => "state count"
  | transitionCount => "transition count"
  | initialState => "initial state"
  | acceptingCount => "accepting count"
  | source => "source"
  | target => "target"
  | acceptingState => "accepting state"

inductive Fault where
  | missingHeader
  | headerFields
  | missingTransition
  | missingAccepting
  | notThreeFields
  | notNumber (field : Field) (text : List Char)
  | outOfRange (field : Field) (state stateCount : Nat)
  | badSymbol (text : List Char)
  | trailing
deriving DecidableEq

def Fault.reason : Fault → String
  | missingHeader => "missing header"
  | headerFields => "header needs four fields"
  | missingTransition => "missing transition line"
  | missingAccepting => "missing accepting state line"
  | notThreeFields => "expected `<from> <symbol> <to>`"
  | notNumber field text => field.name ++ " `" ++ String.ofList text ++ "` is not a number"
  | outOfRange field state stateCount =>
    field.name ++ s!" {state} is out of range (state count {stateCount})"
  | badSymbol text => "cannot parse symbol `" ++ String.ofList text ++ "`"
  | trailing => "unexpected trailing line"

end PatternInference.Dump
