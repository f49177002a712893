import ArrowScript.Value.Basic

/-!
Tables of names. A table keeps its bindings in the order of their first definition, and knows the
tables around it, the nearest first; all tables live in one store, which only grows.
-/

namespace ArrowScript

/-- Names with values, in the order in which the names were first given one. -/
abbrev Bindings := List (String × Traced)

namespace Bindings

def find? (x : String) : Bindings → Option Traced
  | [] => none
  | (y, v) :: rest => if y = x then some v else find? x rest

/-- A name that is bound keeps its place; a new one goes to the end. -/
def insert (x : String) (v : Traced) : Bindings → Bindings
  | [] => [(x, v)]
  | (y, w) :: rest => if y = x then (y, v) :: rest else (y, w) :: insert x v rest

def erase (x : String) : Bindings → Bindings
  | [] => []
  | (y, w) :: rest => if y = x then rest else (y, w) :: erase x rest

def names (b : Bindings) : List String := b.map (·.1)

theorem find?_insert (x y : String) (v : Traced) (b : Bindings) :
    find? y (insert x v b) = if x = y then some v else find? y b := by
  induction b with
  | nil => simp [insert, find?]
  | cons e b ih =>
    simp only [insert]
    split
    · rename_i h; subst h; simp only [find?]; split <;> rfl
    · simp only [find?, ih]
      split
      · rename_i h h'; subst h'; simp [Ne.symm h]
      · rfl

theorem names_insert_of_mem {x : String} {b : Bindings} (v : Traced) (h : x ∈ b.names) :
    (b.insert x v).names = b.names := by
  induction b with
  | nil => simp [names] at h
  | cons e b ih =>
    simp only [insert]
    split
    · rfl
    · rename_i hne
      simp only [names, List.map_cons, List.mem_cons] at h
      rcases h with h | h
      · exact absurd h.symm hne
      · simpa [names] using ih h

theorem names_insert_of_not_mem {x : String} {b : Bindings} (v : Traced) (h : x ∉ b.names) :
    (b.insert x v).names = b.names ++ [x] := by
  induction b with
  | nil => rfl
  | cons e b ih =>
    simp only [names, List.map_cons, List.mem_cons, not_or] at h
    have hne : e.1 ≠ x := fun h' => h.1 h'.symm
    simpa [insert, hne, names] using ih h.2

end Bindings

structure Table where
  /-- The tables around this one, the nearest first. -/
  outer : List TableId
  bindings : Bindings

namespace Table

def empty (outer : List TableId) : Table := ⟨outer, []⟩

def summary (t : Table) : String :=
  "SymbolTable \x7b names: " ++ Text.quoteList t.bindings.names ++ ", has_parent: "
    ++ (if t.outer.isEmpty then "false" else "true") ++ " \x7d"

end Table

structure Store where
  tables : Array Table

namespace Store

def empty : Store := ⟨#[]⟩

def bindings (s : Store) (t : TableId) : Bindings :=
  match s.tables[t]? with
  | some table => table.bindings
  | none => []

def outer (s : Store) (t : TableId) : List TableId :=
  match s.tables[t]? with
  | some table => table.outer
  | none => []

/-- The tables in which a name is looked up from `t`, in this order. -/
def chain (s : Store) (t : TableId) : List TableId := t :: s.outer t

/-- The value of `x` in `t` itself. -/
def local? (s : Store) (t : TableId) (x : String) : Option Traced := (s.bindings t).find? x

/-- The value of `x` in the nearest table that has one. -/
def lookup? (s : Store) (t : TableId) (x : String) : Option Traced :=
  (s.chain t).findSome? fun u => s.local? u x

/-- Whether `u` is `t` or lies around it. -/
def isWithin (s : Store) (t u : TableId) : Bool := (s.chain t).contains u

def update (s : Store) (t : TableId) (f : Bindings → Bindings) : Store :=
  ⟨s.tables.modify t fun table => { table with bindings := f table.bindings }⟩

def define (s : Store) (t : TableId) (x : String) (v : Traced) : Store :=
  s.update t (·.insert x v)

def erase (s : Store) (t : TableId) (x : String) : Store := s.update t (·.erase x)

def clear (s : Store) (t : TableId) : Store := s.update t fun _ => []

/-- The place of the table that is made next. -/
def next (s : Store) : TableId := s.tables.size

def addRoot (s : Store) : Store := ⟨s.tables.push (.empty [])⟩

def addWithin (s : Store) (t : TableId) : Store := ⟨s.tables.push (.empty (s.chain t))⟩

/-- The names that every program finds defined. -/
def predefined : List (String × Value) :=
  [("nil", .ofBool false), ("false", .ofBool false), ("true", .ofBool true)]

def addGlobals (s : Store) : Store :=
  predefined.foldl (fun s' (x, v) => s'.define s.next x (.plain v)) s.addRoot

def summary (s : Store) (t : TableId) : String :=
  (Table.mk (s.outer t) (s.bindings t)).summary

end Store

end ArrowScript
