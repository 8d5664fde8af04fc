import AuditFields.Entries
import AuditFields.Toml.Value

/-!
# Building TOML tables

The tables of a text while it is read. A table comes into being by a header, by a dotted key or only
because something under it is defined, and this decides what may still be added to it: no key and no
table is defined twice, dotted keys extend only tables that dotted keys made, and an inline value is
closed.
-/

namespace AuditFields.Toml

/-- What stands under a key while a text is read. -/
inductive Node where
  /-- A value, which nothing can be added to. -/
  | value (value : Value)
  /-- A table: whether it has no header of its own, and whether a dotted key made it. -/
  | table (implicit dotted : Bool) (entries : List (String × Node))
  | tables (items : List (List (String × Node)))
  deriving Inhabited

mutual

def Node.toValue : Node → Value
  | .value value => value
  | .table _ _ entries => .table (entryValues entries)
  | .tables items => .array (tableValues items)

def entryValues : List (String × Node) → List (String × Value)
  | [] => []
  | (key, node) :: entries => (key, node.toValue) :: entryValues entries

def tableValues : List (List (String × Node)) → List Value
  | [] => []
  | entries :: items => .table (entryValues entries) :: tableValues items

end

/-- Changes the table at a path, making the tables on the way that are missing. Of repeated tables
the last is meant. A dotted path does not lead through a table that has a header. The change is told
whether a dotted key made the table. -/
def updateAt (viaDots : Bool) (change : Bool → Entries Node → Option (Entries Node)) :
    List String → Bool → Entries Node → Option (Entries Node)
  | [], dotted, entries => change dotted entries
  | key :: path, _, entries =>
    match entries.get? key with
    | none => do
      let inner ← updateAt viaDots change path viaDots []
      return entries.put key (.table true viaDots inner)
    | some (.value _) => none
    | some (.tables items) => do
      let inner ← updateAt viaDots change path false (← items.getLast?)
      return entries.put key (.tables (items.dropLast ++ [inner]))
    | some (.table implicit dotted inner) =>
      if viaDots && !implicit then none
      else do
        let inner ← updateAt viaDots change path dotted inner
        return entries.put key (.table implicit dotted inner)

def nodeAt? : List String → Entries Node → Option Node
  | [], _ => none
  | [key], entries => entries.get? key
  | key :: path, entries =>
    match entries.get? key with
    | some (.table _ _ inner) => nodeAt? path inner
    | some (.tables items) => items.getLast?.bind (nodeAt? path)
    | _ => none

def define (path : List String) (key : String) (value : Value) (entries : Entries Node) :
    Option (Entries Node) :=
  let change := fun dotted (table : Entries Node) =>
    if dotted == path.isEmpty || table.contains key then none
    else some (table.put key (.value value))
  updateAt true change path false entries

def inlineTable (pairs : List (List String × String × Value)) : Option Value := do
  let entries ← pairs.foldlM (fun entries pair => define pair.1 pair.2.1 pair.2.2 entries) []
  return .table (entryValues entries)

/-! ## Documents -/

/-- A document while it is read: the tables that are complete, and the one that keys go to. -/
structure Document where
  root : Entries Node := []
  current : Entries Node := []
  /-- The path of the current table; the table outside all headers has none. -/
  path : List String := []
  /-- Whether the header of the current table may be repeated. -/
  repeated : Bool := false

namespace Document

def complete (document : Document) : Option (Entries Node) :=
  match document.path.getLast? with
  | none => some document.current
  | some key =>
    let change := fun _ (table : Entries Node) =>
      if document.repeated then
        match table.get? key with
        | none => some (table.put key (.tables [document.current]))
        | some (.tables items) => some (table.put key (.tables (items ++ [document.current])))
        | some _ => none
      else some (table.put key (.table false false document.current))
    updateAt false change document.path.dropLast false document.root

/-- The document after a header. A table that only something under it has made goes on with what it
holds, and moves to the end of the table it is in. -/
def header (path : List String) (document : Document) : Option Document := do
  let root ← document.complete
  let key ← path.getLast?
  let without := fun _ (table : Entries Node) => some (table.filter fun entry => entry.1 != key)
  let remaining ← updateAt false without path.dropLast false root
  match nodeAt? path root with
  | none => return { root := remaining, path }
  | some (.table true false inner) => return { root := remaining, current := inner, path }
  | some _ => none

def repeatedHeader (path : List String) (document : Document) : Option Document := do
  let root ← document.complete
  let key ← path.getLast?
  let change := fun _ (table : Entries Node) =>
    match table.get? key with
    | none => some (table.put key (.tables []))
    | some (.tables _) => some table
    | some _ => none
  let root ← updateAt false change path.dropLast false root
  return { root, path, repeated := true }

def key (path : List String) (key : String) (value : Value) (document : Document) :
    Option Document := do
  return { document with current := ← define path key value document.current }

end Document

end AuditFields.Toml
