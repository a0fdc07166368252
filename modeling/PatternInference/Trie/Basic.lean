/-!
Prefix trees. States are numbered in the order in which they are made, the root first; children are
kept in insertion order.
-/

namespace PatternInference

structure TrieNode (α : Type) where
  children : List (α × Nat)
  accepting : Bool
deriving DecidableEq

/-- `accepted` lists the ends of the words and `alphabet` their symbols, each in first-seen order. -/
structure Trie (α : Type) where
  nodes : Array (TrieNode α)
  accepted : List Nat
  alphabet : List α
deriving DecidableEq

namespace Trie

variable {α : Type}

def empty : Trie α := ⟨#[⟨[], false⟩], [], []⟩

def children (t : Trie α) (s : Nat) : List (α × Nat) :=
  match t.nodes[s]? with
  | some node => node.children
  | none => []

def isAccepting (t : Trie α) (s : Nat) : Bool :=
  match t.nodes[s]? with
  | some node => node.accepting
  | none => false

def stateCount (t : Trie α) : Nat := t.nodes.size

def transitionCount (t : Trie α) : Nat := t.nodes.size - 1

def wordCount (t : Trie α) : Nat := t.accepted.length

variable [DecidableEq α]

def child? (t : Trie α) (s : Nat) (a : α) : Option Nat := (t.children s).lookup a

def grow (t : Trie α) (s : Nat) (a : α) (next : Nat) : Trie α where
  nodes := (t.nodes.modify s fun node =>
    { node with children := node.children ++ [(a, next)] }).push ⟨[], false⟩
  accepted := t.accepted
  alphabet := if a ∈ t.alphabet then t.alphabet else t.alphabet ++ [a]

def extend (t : Trie α) (s : Nat) : List α → Trie α × Nat
  | [] => (t, s)
  | a :: word =>
    match t.child? s a with
    | some next => extend t next word
    | none =>
      let next := t.stateCount
      extend (t.grow s a next) next word

def accept (t : Trie α) (s : Nat) : Trie α :=
  if t.isAccepting s then t
  else
    { t with
      nodes := t.nodes.modify s fun node => { node with accepting := true }
      accepted := t.accepted ++ [s] }

def insert (t : Trie α) (word : List α) : Trie α :=
  let (grown, s) := t.extend 0 word
  grown.accept s

def insertMany (t : Trie α) (words : List (List α)) : Trie α := words.foldl insert t

def ofList (words : List (List α)) : Trie α := empty.insertMany words

def follow? (t : Trie α) (s : Nat) : List α → Option Nat
  | [] => some s
  | a :: word => (t.child? s a).bind fun next => t.follow? next word

def contains (t : Trie α) (word : List α) : Bool :=
  match t.follow? 0 word with
  | some s => t.isAccepting s
  | none => false

omit [DecidableEq α] in
def onlyPath (t : Trie α) (fuel s : Nat) : List α :=
  match fuel with
  | 0 => []
  | fuel + 1 =>
    if t.isAccepting s then []
    else
      match t.children s with
      | [(a, next)] => a :: t.onlyPath fuel next
      | _ => []

def commonPrefix (t : Trie α) : List α := t.onlyPath t.stateCount 0

end Trie
end PatternInference
