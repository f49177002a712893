import ArrowScript.Operator

/-!
Expression trees. Every node carries an annotation; trees that were read from a source carry spans,
and `Expr.erase` forgets them. A conditional has a first arm, which is why it can never be empty.
-/

namespace ArrowScript

inductive Expr (α : Type) where
  | number (ann : α) (n : Number)
  | text (ann : α) (s : String)
  | name (ann : α) (x : String)
  | binary (ann : α) (op : BinaryOp) (left right : Expr α)
  | unary (ann : α) (op : UnaryOp) (operand : Expr α)
  | assign (ann : α) (x : String) (value : Expr α)
  | cond (ann : α) (test body : Expr α) (elifs : List (Expr α × Expr α))
      (otherwise : Option (Expr α))
  | forRange (ann : α) (x : String) (first bound : Expr α) (step : Option (Expr α))
      (body : Expr α)
  | whileLoop (ann : α) (test body : Expr α)
  | function (ann : α) (name : Option String) (params : List String) (body : Expr α)
  | call (ann : α) (callee : Expr α) (args : List (Expr α))

/-- A tree as it is read from a source. -/
abbrev SourceExpr := Expr Span

namespace Expr

variable {α β : Type}

def ann : Expr α → α
  | number a _ | text a _ | name a _ | binary a .. | unary a .. | assign a .. | cond a ..
  | forRange a .. | whileLoop a .. | function a .. | call a .. => a

mutual

/-- Applies `f` to all annotations. -/
def map (f : α → β) : Expr α → Expr β
  | number a n => number (f a) n
  | text a s => text (f a) s
  | name a x => name (f a) x
  | binary a op l r => binary (f a) op (map f l) (map f r)
  | unary a op e => unary (f a) op (map f e)
  | assign a x e => assign (f a) x (map f e)
  | cond a t b arms other => cond (f a) (map f t) (map f b) (mapArms f arms) (mapOption f other)
  | forRange a x i j step b =>
    forRange (f a) x (map f i) (map f j) (mapOption f step) (map f b)
  | whileLoop a t b => whileLoop (f a) (map f t) (map f b)
  | function a n ps b => function (f a) n ps (map f b)
  | call a c es => call (f a) (map f c) (mapList f es)

def mapArms (f : α → β) : List (Expr α × Expr α) → List (Expr β × Expr β)
  | [] => []
  | (t, b) :: arms => (map f t, map f b) :: mapArms f arms

def mapOption (f : α → β) : Option (Expr α) → Option (Expr β)
  | none => none
  | some e => some (map f e)

def mapList (f : α → β) : List (Expr α) → List (Expr β)
  | [] => []
  | e :: es => map f e :: mapList f es

end

/-- The tree without its annotations. -/
def erase (e : Expr α) : Expr Unit := e.map fun _ => ()

@[simp] theorem ann_map (f : α → β) (e : Expr α) : (e.map f).ann = f e.ann := by
  cases e <;> simp [map, ann]

theorem mapList_eq (f : α → β) (es : List (Expr α)) : mapList f es = es.map (map f) := by
  induction es with
  | nil => rfl
  | cons e es ih => simp [mapList, ih]

theorem mapOption_eq (f : α → β) (e : Option (Expr α)) : mapOption f e = e.map (map f) := by
  cases e <;> rfl

theorem mapArms_eq (f : α → β) (arms : List (Expr α × Expr α)) :
    mapArms f arms = arms.map fun a => (a.1.map f, a.2.map f) := by
  induction arms with
  | nil => rfl
  | cons a arms ih => simp [mapArms, ih]

/-- Induction over trees: a property passes from the parts of each node to the node. -/
@[induction_eliminator]
theorem induct {P : Expr α → Prop}
    (number : ∀ a n, P (number a n))
    (text : ∀ a s, P (text a s))
    (name : ∀ a x, P (name a x))
    (binary : ∀ a op l r, P l → P r → P (binary a op l r))
    (unary : ∀ a op e, P e → P (unary a op e))
    (assign : ∀ a x e, P e → P (assign a x e))
    (cond : ∀ a t b arms other, P t → P b → (∀ arm ∈ arms, P arm.1 ∧ P arm.2) →
      (∀ e ∈ other, P e) → P (cond a t b arms other))
    (forRange : ∀ a x i j step b, P i → P j → (∀ e ∈ step, P e) → P b →
      P (forRange a x i j step b))
    (whileLoop : ∀ a t b, P t → P b → P (whileLoop a t b))
    (function : ∀ a n ps b, P b → P (function a n ps b))
    (call : ∀ a c es, P c → (∀ e ∈ es, P e) → P (call a c es)) (e : Expr α) : P e :=
  @Expr.rec α P (fun arms => ∀ arm ∈ arms, P arm.1 ∧ P arm.2) (fun e => ∀ e' ∈ e, P e')
    (fun es => ∀ e ∈ es, P e) (fun arm => P arm.1 ∧ P arm.2) number text name binary unary assign
    cond forRange whileLoop function call (by simp) (fun _ _ h hs => List.forall_mem_cons.2 ⟨h, hs⟩)
    (by simp) (fun _ h => by simpa using h) (by simp)
    (fun _ _ h hs => List.forall_mem_cons.2 ⟨h, hs⟩) (fun _ _ h h' => ⟨h, h'⟩) e

end Expr

end ArrowScript
