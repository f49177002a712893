import ArrowScript.Expr.Basic

/-!
Two views of a tree for people: its outline on one line, fully parenthesised, and the list of its
nodes from the root down.
-/

namespace ArrowScript.Expr

variable {α : Type}

/-- Texts with a comma and a blank between them. -/
def commaSeparated : List String → String
  | [] => ""
  | [s] => s
  | s :: rest => s ++ ", " ++ commaSeparated rest

mutual

def outline : Expr α → String
  | number _ n => n.toText
  | text _ s => Text.quote s
  | name _ x => x
  | binary _ op l r => "(" ++ outline l ++ " " ++ op.symbol ++ " " ++ outline r ++ ")"
  | unary _ op e => "(" ++ op.symbol ++ " " ++ outline e ++ ")"
  | assign _ x e => "(set " ++ x ++ " " ++ outline e ++ ")"
  | cond _ t b arms other =>
    "(if " ++ outline t ++ " do " ++ outline b ++ outlineArms arms ++ outlineTail " else " other
      ++ ")"
  | forRange _ x i j step b =>
    "(for " ++ x ++ " from " ++ outline i ++ " to " ++ outline j ++ outlineTail " by " step
      ++ " then " ++ outline b ++ ")"
  | whileLoop _ t b => "(while " ++ outline t ++ " then " ++ outline b ++ ")"
  | function _ n ps b =>
    "(fn" ++ (match n with | some x => " " ++ x | none => "") ++ "(" ++ commaSeparated ps
      ++ ") -> " ++ outline b ++ ")"
  | call _ c es => outline c ++ "(" ++ commaSeparated (outlineList es) ++ ")"

def outlineArms : List (Expr α × Expr α) → String
  | [] => ""
  | (t, b) :: arms => " elif " ++ outline t ++ " do " ++ outline b ++ outlineArms arms

/-- An optional part behind the word that introduces it. -/
def outlineTail (word : String) : Option (Expr α) → String
  | none => ""
  | some e => word ++ outline e

def outlineList : List (Expr α) → List String
  | [] => []
  | e :: es => outline e :: outlineList es

end

/-- One line of a listing: a node, how deep it stands, and what it is. -/
structure Line (α : Type) where
  depth : Nat
  ann : α
  label : String

def label : Expr α → String
  | number _ n => "number " ++ n.toText
  | text _ s => "string " ++ s
  | name _ x => "var " ++ x
  | binary _ op _ _ => "binary " ++ op.symbol
  | unary _ op _ => "unary " ++ op.symbol
  | assign _ x _ => "set " ++ x
  | cond _ _ _ arms other => s!"if {arms.length + 1} {other.isSome}"
  | forRange _ x _ _ step _ => s!"for {x} {step.isSome}"
  | whileLoop .. => "while"
  | function _ n ps _ => "fn " ++ n.getD "" ++ "(" ++ ",".intercalate ps ++ ")"
  | call _ _ es => s!"call {es.length}"

mutual

/-- The nodes of a tree, each before its parts, the root at depth `d`. -/
def listing (d : Nat) : Expr α → List (Line α)
  | number a n => [⟨d, a, label (number a n)⟩]
  | text a s => [⟨d, a, label (text a s)⟩]
  | name a x => [⟨d, a, label (name a x)⟩]
  | binary a op l r => ⟨d, a, label (binary a op l r)⟩ :: listing (d + 1) l ++ listing (d + 1) r
  | unary a op e => ⟨d, a, label (unary a op e)⟩ :: listing (d + 1) e
  | assign a x e => ⟨d, a, label (assign a x e)⟩ :: listing (d + 1) e
  | cond a t b arms other =>
    ⟨d, a, label (cond a t b arms other)⟩ :: listing (d + 1) t ++ listing (d + 1) b
      ++ listingArms (d + 1) arms ++ listingOption (d + 1) other
  | forRange a x i j step b =>
    ⟨d, a, label (forRange a x i j step b)⟩ :: listing (d + 1) i ++ listing (d + 1) j
      ++ listingOption (d + 1) step ++ listing (d + 1) b
  | whileLoop a t b => ⟨d, a, label (whileLoop a t b)⟩ :: listing (d + 1) t ++ listing (d + 1) b
  | function a n ps b => ⟨d, a, label (function a n ps b)⟩ :: listing (d + 1) b
  | call a c es => ⟨d, a, label (call a c es)⟩ :: listing (d + 1) c ++ listingList (d + 1) es

def listingArms (d : Nat) : List (Expr α × Expr α) → List (Line α)
  | [] => []
  | (t, b) :: arms => listing d t ++ listing d b ++ listingArms d arms

def listingOption (d : Nat) : Option (Expr α) → List (Line α)
  | none => []
  | some e => listing d e

def listingList (d : Nat) : List (Expr α) → List (Line α)
  | [] => []
  | e :: es => listing d e ++ listingList d es

end

end ArrowScript.Expr
