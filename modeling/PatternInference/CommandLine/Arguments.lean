import PatternInference.Inference

/-!
The arguments that both tools take. Options and files may be mixed; `--` ends the options, and `-`
names the standard input.
-/

namespace PatternInference.CommandLine

inductive Flag where
  | noSimplify
  | noInterior
  | group
  | anchored
deriving DecidableEq

def Flag.name : Flag → String
  | noSimplify => "--no-simplify"
  | noInterior => "--no-interior"
  | group => "--group"
  | anchored => "--anchored"

def Flag.set : Flag → Options → Options
  | noSimplify, o => { o with simplify := false }
  | noInterior, o => { o with interior := false }
  | group, o => { o with grouped := true }
  | anchored, o => { o with anchored := true }

inductive Word where
  | file
  | endOfOptions
  | flag (flag : Flag)
  | verbose (amount : Nat)
  | unknown
deriving DecidableEq

def letterV? (arg : String) : Option Nat :=
  match arg.toList with
  | '-' :: rest => if rest ≠ [] ∧ rest.all (· == 'v') then some rest.length else none
  | _ => none

def Word.ofArgument (arg : String) : Word :=
  if arg = "-" ∨ arg.toList.head? ≠ some '-' then file
  else if arg = "--" then endOfOptions
  else if arg = "--verbose" then verbose 1
  else
    match [Flag.noSimplify, .noInterior, .group, .anchored].find? (·.name == arg), letterV? arg with
    | some f, _ => flag f
    | none, some n => verbose n
    | none, none => unknown

structure Settings where
  options : Options := {}
  verbosity : Nat := 0
  files : List String := []
deriving DecidableEq

def maxVerbosity : Nat := 255

def Settings.read (s : Settings) : List String → Except String Settings
  | [] => .ok s
  | arg :: rest =>
    match Word.ofArgument arg with
    | .file => { s with files := s.files ++ [arg] }.read rest
    | .endOfOptions => .ok { s with files := s.files ++ rest }
    | .flag f => { s with options := f.set s.options }.read rest
    | .verbose n => { s with verbosity := min maxVerbosity (s.verbosity + n) }.read rest
    | .unknown => .error arg

def wantsHelp (args : List String) : Bool := args.any fun a => a == "--help" || a == "-h"

end PatternInference.CommandLine
