import TuneRelay.Numeric

/-!
# Documents and how they are assembled

A document is a table of values. A format reads documents off texts and writes sections of scalars.

While a document is read, its tables remember how they came to be: a table may be written once,
under its own header, by dotted keys in one table, or inline. Headers below it may come first. The
table being read stays apart from the document until the next header.
-/
namespace TuneRelay.Toml
open Numeric

abbrev Key := List Char

inductive Value
  | string (text : List Char)
  | integer (value : Int)
  | float (value : Binary64)
  | boolean (value : Bool)
  | moment
  | array (items : List Value)
  | table (entries : List (Key × Value))

abbrev Document := List (Key × Value)

/-- A value that is written on a line of its own. -/
inductive Scalar
  | string (text : List Char)
  | natural (value : Nat)
  | float (value : Binary64)
  | boolean (value : Bool)

def maxInteger : Nat := 9223372036854775807

/-- Integers have a sign and 64 bits. -/
def Scalar.isWritable : Scalar → Bool
  | natural n => n ≤ maxInteger
  | _ => true

def Scalar.value : Scalar → Value
  | string text => .string text
  | natural n => .integer n
  | float x => .float x
  | boolean b => .boolean b

abbrev Fields := List (Key × Scalar)

/-- Tables of scalars, each under its name. -/
abbrev Sections := List (Key × Fields)

def Fields.document (fields : Fields) : Document :=
  fields.map fun field => (field.1, field.2.value)

def Sections.document (sections : Sections) : Document :=
  sections.map fun s => (s.1, .table (Fields.document s.2))

def Sections.isWritable (sections : Sections) : Bool :=
  sections.all fun s => s.2.all fun field => field.2.isWritable

/-- How documents are read, and how sections are written if they can be. -/
structure Format where
  read : List Char → Option Document
  write : Sections → Except String (List Char)

/-- How a table came to be: by its own header, as the parent of one, or by a dotted key. -/
inductive Origin | declared | implied | dotted
  deriving DecidableEq, Repr

inductive Node
  | string (text : List Char)
  | integer (value : Int)
  | float (value : Binary64)
  | boolean (value : Bool)
  | moment
  | array (items : List Node)
  | inlineTable (entries : List (Key × Node))
  | table (origin : Origin) (entries : List (Key × Node))
  | tables (items : List (List (Key × Node)))

abbrev Entries := List (Key × Node)

mutual

/-- What a node says, however its tables came to be. -/
def Node.toValue : Node → Value
  | .string text => .string text
  | .integer n => .integer n
  | .float x => .float x
  | .boolean b => .boolean b
  | .moment => .moment
  | .array items => .array (valuesOf items)
  | .inlineTable entries => .table (documentOf entries)
  | .table _ entries => .table (documentOf entries)
  | .tables items => .array (tablesOf items)

def valuesOf : List Node → List Value
  | [] => []
  | node :: rest => node.toValue :: valuesOf rest

def documentOf : List (Key × Node) → Document
  | [] => []
  | (key, node) :: rest => (key, node.toValue) :: documentOf rest

def tablesOf : List (List (Key × Node)) → List Value
  | [] => []
  | entries :: rest => .table (documentOf entries) :: tablesOf rest

end

structure Table where
  origin : Origin := .declared
  entries : Entries := []

def Entries.find? (entries : Entries) (key : Key) : Option Node := entries.lookup key

namespace Table

def toNode (t : Table) : Node := .table t.origin t.entries

/-- Puts a node under a key, in its old place if the key is there. -/
def put (t : Table) (key : Key) (node : Node) : Table :=
  if (Entries.find? t.entries key).isSome then
    { t with entries := t.entries.map fun entry => if entry.1 == key then (key, node) else entry }
  else { t with entries := t.entries ++ [(key, node)] }

def remove (t : Table) (key : Key) : Table :=
  { t with entries := t.entries.filter fun entry => entry.1 != key }

end Table

/-- Follows a path from a table, making the tables that are missing, and acts on the table it ends
in. A path of a dotted key may not enter a table that has a header of its own. -/
def descend {α : Type} (byDots : Bool) (act : Table → Option (α × Table)) :
    List Key → Table → Option (α × Table)
  | [], t => act t
  | key :: path, t =>
    match Entries.find? t.entries key with
    | none => do
      let (a, inner) ← descend byDots act path { origin := if byDots then .dotted else .implied }
      return (a, t.put key inner.toNode)
    | some (.table origin entries) =>
      if byDots && origin == .declared then none
      else do
        let (a, inner) ← descend byDots act path ⟨origin, entries⟩
        return (a, t.put key inner.toNode)
    | some (.tables items) => do
      let (a, inner) ← descend byDots act path { entries := ← items.getLast? }
      return (a, t.put key (.tables (items.dropLast ++ [inner.entries])))
    | some _ => none

/-- Adds a pair under a key path. The last key must be new, and a table that a dotted key reaches
must have been made by one. -/
def Table.insert (t : Table) (path : List Key) (key : Key) (node : Node) : Option Table :=
  (descend true (fun inner =>
    if (inner.origin == .dotted) == path.isEmpty then none
    else if (Entries.find? inner.entries key).isSome then none
    else some ((), inner.put key node)) path t).map Prod.snd

def splitPath (path : List Key) : Option (List Key × Key) :=
  path.getLast?.map fun key => (path.dropLast, key)

inductive Place
  | root
  | table (parent : List Key) (key : Key)
  | element (parent : List Key) (key : Key)

/-- A document in progress: the finished part, and the table that pairs go into. -/
structure Assembly where
  root : Table := {}
  current : Table := {}
  place : Place := .root

namespace Assembly

def close (a : Assembly) : Option Table :=
  match a.place with
  | .root => some a.current
  | .table parent key =>
    (descend false (fun t =>
      match Entries.find? t.entries key with
      | none | some (.table .implied _) => some ((), t.put key a.current.toNode)
      | some _ => none) parent a.root).map Prod.snd
  | .element parent key =>
    (descend false (fun t =>
      match Entries.find? t.entries key with
      | none => some ((), t.put key (.tables [a.current.entries]))
      | some (.tables items) => some ((), t.put key (.tables (items ++ [a.current.entries])))
      | some _ => none) parent a.root).map Prod.snd

def pair (a : Assembly) (path : List Key) (node : Node) : Option Assembly := do
  let (parents, key) ← splitPath path
  return { a with current := ← a.current.insert parents key node }

/-- Starts the table of a header. Only a table that headers below it have implied may be there
before, and keeps what it holds. -/
def header (a : Assembly) (path : List Key) : Option Assembly := do
  let (parent, key) ← splitPath path
  let (held, root) ← descend false (fun t =>
    match Entries.find? t.entries key with
    | none => some ([], t)
    | some (.table .implied held) => some (held, t.remove key)
    | some _ => none) parent (← a.close)
  return ⟨root, { entries := held }, .table parent key⟩

def element (a : Assembly) (path : List Key) : Option Assembly := do
  let (parent, key) ← splitPath path
  let (_, root) ← descend false (fun t =>
    match Entries.find? t.entries key with
    | none => some ((), t.put key (.tables []))
    | some (.tables _) => some ((), t)
    | some _ => none) parent (← a.close)
  return ⟨root, {}, .element parent key⟩

end Assembly

def inlineEntries (pairs : List (List Key × Node)) : Option Entries :=
  (pairs.foldlM (fun (t : Table) (pair : List Key × Node) => do
    let (parents, key) ← splitPath pair.1
    t.insert parents key pair.2) {}).map Table.entries

end TuneRelay.Toml
