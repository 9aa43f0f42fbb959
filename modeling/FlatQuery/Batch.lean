import FlatQuery.Paths
import FlatQuery.Term.Printer

/-! Batches: the paths of each operation of a request, and the query they are written as. -/

namespace FlatQuery

namespace Path

def chars (path : Path) : List Char := ['.'].intercalate (path.map Step.chars)

def text (path : Path) : String := String.ofList path.chars

end Path

structure Entry where
  id : String
  paths : List Path

namespace Entry

def chars (entry : Entry) : List Char := [','].intercalate (entry.paths.map Path.chars)

def depth (entry : Entry) : Nat := ((entry.paths.map List.length).max?).getD 0 - 1

def lower (levels : Nat) (entry : Entry) : Entry :=
  { entry with paths := entry.paths.map (List.replicate levels (.plain "self") ++ ·) }

end Entry

abbrev Batch := List Entry

namespace Batch

def chars (batch : Batch) : List Char := [';'].intercalate (batch.map Entry.chars)

def text (batch : Batch) : String := String.ofList batch.chars

/-- Lowers every entry by the depths of the entries before it, after `levels` to start with. -/
def lowerFrom (levels : Nat) : Batch → Batch
  | [] => []
  | entry :: rest => entry.lower levels :: lowerFrom (levels + entry.depth) rest

def inOrder (batch : Batch) : Batch := lowerFrom 0 batch

def add (id : String) (paths : List Path) : Batch → Batch
  | [] => [⟨id, paths⟩]
  | entry :: rest =>
    if entry.id = id then { entry with paths := entry.paths ++ paths } :: rest
    else entry :: add id paths rest

def extend (settings : Settings) (request : Request) (batch : Batch) :
    List Document.Operation → Except Problem Batch
  | [] => .ok batch
  | operation :: rest => do
    let paths ← Scope.operationPaths ⟨settings, request, operation⟩
    extend settings request (batch.add operation.id paths) rest

def ofRequest (settings : Settings) (request : Request) : Except Problem Batch :=
  extend settings request [] request.operations

end Batch

structure QueryPair where
  requested : String
  executable : String
deriving DecidableEq, Repr

namespace QueryPair

def empty : QueryPair := ⟨"", ""⟩

def differ (pair : QueryPair) : Bool := pair.requested ≠ pair.executable

def ofBatch (settings : Settings) (batch : Batch) : QueryPair :=
  ⟨batch.text, if settings.strictOrder then batch.inOrder.text else batch.text⟩

end QueryPair

end FlatQuery
