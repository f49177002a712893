import Mathlib
import ArrowScript.Expr.Reading
import ArrowScript.Proofs.Grammar

/-! What is read derives. The tokens taken in so far are those of the open constructs, each with
its finished parts, followed by those of the operand or the header at the focus. An open construct
stands only where the one below it has room for the phrase that it is going to be, so finishing
constructs in any order that the stack allows stays within the grammar. -/

namespace ArrowScript

open Phrase

namespace Expr

variable {α : Type} (a : α) (x : String) (e e' : Expr α)

@[simp] theorem erase_binary (op : BinaryOp) :
    (binary a op e e').erase = .binary () op e.erase e'.erase := rfl

@[simp] theorem erase_unary (op : UnaryOp) : (unary a op e).erase = .unary () op e.erase := rfl

@[simp] theorem erase_assign : (assign a x e).erase = .assign () x e.erase := rfl

@[simp] theorem erase_cond (arms : List (Expr α × Expr α)) (other : Option (Expr α)) :
    (cond a e e' arms other).erase =
      .cond () e.erase e'.erase (arms.map fun b => (b.1.erase, b.2.erase)) (other.map erase) := by
  simp only [erase, map, mapArms_eq, mapOption_eq]
  rfl

@[simp] theorem erase_forRange (step : Option (Expr α)) (b : Expr α) :
    (forRange a x e e' step b).erase =
      .forRange () x e.erase e'.erase (step.map erase) b.erase := by
  simp only [erase, map, mapOption_eq]
  rfl

@[simp] theorem erase_whileLoop : (whileLoop a e e').erase = .whileLoop () e.erase e'.erase := rfl

@[simp] theorem erase_function (name : Option String) (params : List String) :
    (function a name params e).erase = .function () name params e.erase := rfl

@[simp] theorem erase_call (args : List (Expr α)) :
    (call a e args).erase = .call () e.erase (args.map erase) := by
  simp only [erase, map, mapList_eq]
  rfl

end Expr

theorem TokenKind.binaryOp?_eq_some {k : TokenKind} {op : BinaryOp} :
    k.binaryOp? = some op ↔ k = op.token := by
  constructor
  · intro h
    unfold binaryOp? at h
    split at h <;> cases h <;> rfl
  · rintro rfl
    cases op <;> rfl

namespace Fragment

def Of (f : Fragment) (e : SourceExpr) : Prop := expr.Derives f.1 f.2 ∧ f.2 = e.erase

def OfArm (a : Fragment × Fragment) (b : SourceExpr × SourceExpr) : Prop :=
  a.1.Of b.1 ∧ a.2.Of b.2

def commaAfter {α : Type} : List α → List TokenKind
  | [] => []
  | _ :: _ => [.symbol .comma]

def nextArm : List (Fragment × Fragment) → TokenKind
  | [] => .keyword .if_
  | _ :: _ => .keyword .elif

theorem arms_concat (as : List (Fragment × Fragment)) (a : Fragment × Fragment) :
    arms (as ++ [a]) = arms as ++ nextArm as :: arm a := by
  cases as <;> simp [arms, nextArm]

variable {fs : List Fragment} {es : List SourceExpr}

theorem derives_of_forall (h : List.Forall₂ Of fs es) : ∀ f ∈ fs, expr.Derives f.1 f.2 := by
  induction h with
  | nil => simp
  | cons hf _ ih => exact List.forall_mem_cons.2 ⟨hf.1, ih⟩

theorem map_snd_of_forall (h : List.Forall₂ Of fs es) : fs.map Prod.snd = es.map Expr.erase := by
  induction h with
  | nil => rfl
  | cons hf _ ih => rw [List.map_cons, List.map_cons, hf.2, ih]

theorem forall_concat {α β : Type} {R : α → β → Prop} {as : List α} {bs : List β} {a : α} {b : β}
    (h : List.Forall₂ R as bs) (hab : R a b) : List.Forall₂ R (as ++ [a]) (bs ++ [b]) :=
  List.rel_append h (.cons hab .nil)

theorem derives_cond {as : List (Fragment × Fragment)} {first : SourceExpr × SourceExpr}
    {elifs : List (SourceExpr × SourceExpr)} {other : Option Fragment}
    (h : List.Forall₂ OfArm as (first :: elifs)) (ho : ∀ f ∈ other, expr.Derives f.1 f.2) :
    base.Derives (arms as ++ introduced .else_ other)
      (.cond () first.1.erase first.2.erase (elifs.map fun a => (a.1.erase, a.2.erase))
        (other.map Prod.snd)) := by
  obtain ⟨a, as', ha, has, rfl⟩ := List.forall₂_cons_right_iff.1 h
  have hd : ∀ b ∈ a :: as', expr.Derives b.1.1 b.1.2 ∧ expr.Derives b.2.1 b.2.2 := by
    refine List.forall_mem_cons.2 ⟨⟨ha.1.1, ha.2.1⟩, ?_⟩
    clear h
    induction has with
    | nil => simp
    | cons hb _ ih => exact List.forall_mem_cons.2 ⟨⟨hb.1.1, hb.2.1⟩, ih⟩
  have he : elifs.map (fun a => (a.1.erase, a.2.erase)) = as'.map fun a => (a.1.2, a.2.2) := by
    clear hd h
    induction has with
    | nil => rfl
    | cons hb _ ih => rw [List.map_cons, List.map_cons, ih, hb.1.2, hb.2.2]
  rw [he, ← ha.1.2, ← ha.2.2]
  exact .cond (fun b hb => (hd b hb).1) (fun b hb => (hd b hb).2) ho

end Fragment

open Fragment

namespace Pending

def hole : Pending → Phrase
  | operator _ op => op.operand
  | unary op _ => op.phrase
  | _ => .expr

def whole : Pending → Phrase
  | operator _ op => op.chain
  | unary op _ => op.phrase
  | assign .. => .expr
  | argument .. => .call
  | _ => .base

inductive Reads : Pending → List TokenKind → Prop
  | operator {left op ts} (d : op.chain.Derives ts left.erase) :
      Reads (.operator left op) (ts ++ [op.token])
  | unary {op start} : Reads (.unary op start) [op.token]
  | group : Reads .group [.symbol .opening]
  | assign {start x} : Reads (.assign start x) [.keyword .set, .name x, .symbol .assign]
  | argument {callee given ts} {fs : List Fragment} (d : base.Derives ts callee.erase)
      (h : List.Forall₂ Of fs given) :
      Reads (.argument callee given)
        (ts ++ .symbol .opening :: separated (fs.map Prod.fst) ++ commaAfter fs)
  | armTest {start arms as} (h : List.Forall₂ OfArm as arms) :
      Reads (.armTest start arms) (Fragment.arms as ++ [nextArm as])
  | armBody {start arms test as ts} (h : List.Forall₂ OfArm as arms)
      (d : expr.Derives ts test.erase) :
      Reads (.armBody start arms test) (Fragment.arms as ++ nextArm as :: ts ++ [.keyword .do_])
  | otherwise {start first elifs as} (h : List.Forall₂ OfArm as (first :: elifs)) :
      Reads (.otherwise start first.1 first.2 elifs) (Fragment.arms as ++ [.keyword .else_])
  | forFirst {start x} : Reads (.forFirst start x) [.keyword .for_, .name x, .keyword .from_]
  | forBound {start x first ts} (d : expr.Derives ts first.erase) :
      Reads (.forBound start x first)
        (.keyword .for_ :: .name x :: .keyword .from_ :: ts ++ [.keyword .to_])
  | forStep {start x first bound ts us} (d : expr.Derives ts first.erase)
      (d' : expr.Derives us bound.erase) :
      Reads (.forStep start x first bound)
        (.keyword .for_ :: .name x :: .keyword .from_ :: ts ++ .keyword .to_ :: us
          ++ [.keyword .by_])
  | forBody {start x first bound step ts us} {f : Option Fragment}
      (d : expr.Derives ts first.erase) (d' : expr.Derives us bound.erase)
      (hf : ∀ p ∈ f, expr.Derives p.1 p.2) (hs : f.map Prod.snd = step.map Expr.erase) :
      Reads (.forBody start x first bound step)
        (.keyword .for_ :: .name x :: .keyword .from_ :: ts ++ .keyword .to_ :: us
          ++ introduced .by_ f ++ [.keyword .then_])
  | whileTest {start} : Reads (.whileTest start) [.keyword .while_]
  | whileBody {start test ts} (d : expr.Derives ts test.erase) :
      Reads (.whileBody start test) (.keyword .while_ :: ts ++ [.keyword .then_])
  | functionBody {start name params} :
      Reads (.functionBody start name params)
        (.keyword .fn :: name.toList.map TokenKind.name ++ .symbol .opening ::
          separated (params.map fun x => [TokenKind.name x]) ++ [.symbol .closing, .symbol .arrow])

theorem splitArms_eq (arms : List (SourceExpr × SourceExpr)) (last : SourceExpr × SourceExpr) :
    arms ++ [last] = (splitArms arms last).1 :: (splitArms arms last).2 := by
  cases arms <;> rfl

variable {p : Pending} {e e' : SourceExpr} {us vs : List TokenKind} {c : Bool}

theorem Reads.finish (h : p.Reads us) (d : p.hole.Derives vs e.erase)
    (hf : p.finish? e = some (e', c)) :
    p.whole.Derives (us ++ vs) e'.erase ∧ (c = true → p.whole = .base) := by
  cases h with
  | operator dl =>
    cases hf
    exact ⟨by simpa [whole] using Derives.binary dl d, by simp⟩
  | unary =>
    cases hf
    exact ⟨.unary d, by simp⟩
  | assign =>
    cases hf
    exact ⟨.assign d, by simp⟩
  | @armBody start arms test as ts h dt =>
    simp only [finish?, Option.some.injEq, Prod.mk.injEq] at hf
    obtain ⟨rfl, rfl⟩ := hf
    refine ⟨?_, fun _ => rfl⟩
    have ha : OfArm ((ts, test.erase), (vs, e.erase)) (test, e) := ⟨⟨dt, rfl⟩, d, rfl⟩
    have h' := forall_concat h ha
    rw [splitArms_eq] at h'
    have h'' := @derives_cond _ _ _ none h' (by simp)
    simpa [whole, arms_concat, arm, introduced] using h''
  | @otherwise start first elifs as h =>
    cases hf
    refine ⟨?_, fun _ => rfl⟩
    have h' := @derives_cond _ _ _ (some (vs, e.erase)) h (by rintro _ ⟨⟩; exact d)
    simpa [whole, introduced] using h'
  | forBody di dj hstep hs =>
    cases hf
    refine ⟨?_, fun _ => rfl⟩
    simpa [whole, hs] using Derives.forRange di dj hstep d
  | whileBody dt =>
    cases hf
    exact ⟨by simpa [whole] using Derives.whileLoop dt d, fun _ => rfl⟩
  | functionBody =>
    cases hf
    exact ⟨by simpa [whole] using Derives.function d, fun _ => rfl⟩
  | _ => cases hf

theorem Reads.comma {callee : SourceExpr} {given : List SourceExpr}
    (h : (Pending.argument callee given).Reads us) (d : expr.Derives vs e.erase) :
    (Pending.argument callee (given ++ [e])).Reads (us ++ vs ++ [.symbol .comma]) := by
  cases h with
  | @argument _ _ ts fs dc hf =>
    have hf' : List.Forall₂ Of (fs ++ [(vs, e.erase)]) (given ++ [e]) := forall_concat hf ⟨d, rfl⟩
    have heq : ts ++ .symbol .opening :: separated ((fs ++ [(vs, e.erase)]).map Prod.fst) ++
        commaAfter (fs ++ [(vs, e.erase)]) =
          ts ++ .symbol .opening :: separated (fs.map Prod.fst) ++ commaAfter fs ++ vs ++
            [.symbol .comma] := by
      cases fs <;> simp [separated, commaAfter]
    rw [← heq]
    exact .argument dc hf'

theorem Reads.closing {callee : SourceExpr} {given : List SourceExpr}
    (h : (Pending.argument callee given).Reads us) (d : expr.Derives vs e.erase) (s : Span) :
    call.Derives (us ++ vs ++ [.symbol .closing]) (Expr.call s callee (given ++ [e])).erase := by
  cases h with
  | @argument _ _ ts fs dc hf =>
    have hf' : List.Forall₂ Of (fs ++ [(vs, e.erase)]) (given ++ [e]) := forall_concat hf ⟨d, rfl⟩
    have d' := Derives.call dc (derives_of_forall hf')
    rw [map_snd_of_forall hf', ← Expr.erase_call s] at d'
    have heq : ts ++ .symbol .opening :: separated ((fs ++ [(vs, e.erase)]).map Prod.fst) ++
        [.symbol .closing] = ts ++ .symbol .opening :: separated (fs.map Prod.fst) ++
        commaAfter fs ++ vs ++ [.symbol .closing] := by
      cases fs <;> simp [separated, commaAfter]
    rwa [heq] at d'

theorem Reads.elif {start : Position} {arms : List (SourceExpr × SourceExpr)} {test : SourceExpr}
    (h : (Pending.armBody start arms test).Reads us) (d : expr.Derives vs e.erase) :
    (Pending.armTest start (arms ++ [(test, e)])).Reads (us ++ vs ++ [.keyword .elif]) := by
  cases h with
  | @armBody _ _ _ as ts h dt =>
    have ha : OfArm ((ts, test.erase), (vs, e.erase)) (test, e) := ⟨⟨dt, rfl⟩, d, rfl⟩
    have hn : nextArm (as ++ [((ts, test.erase), (vs, e.erase))]) = .keyword .elif := by
      cases as <;> rfl
    have h' : (Pending.armTest start (arms ++ [(test, e)])).Reads _ := .armTest (forall_concat h ha)
    simpa [arms_concat, arm, hn] using h'

theorem Reads.else_ {start : Position} {arms : List (SourceExpr × SourceExpr)} {test : SourceExpr}
    (h : (Pending.armBody start arms test).Reads us) (d : expr.Derives vs e.erase) :
    (Pending.otherwise start (splitArms arms (test, e)).1.1 (splitArms arms (test, e)).1.2
      (splitArms arms (test, e)).2).Reads (us ++ vs ++ [.keyword .else_]) := by
  cases h with
  | @armBody _ _ _ as ts h dt =>
    have ha : OfArm ((ts, test.erase), (vs, e.erase)) (test, e) := ⟨⟨dt, rfl⟩, d, rfl⟩
    have h' := forall_concat h ha
    rw [splitArms_eq] at h'
    simpa [arms_concat, arm] using Reads.otherwise h'

end Pending

def Pending.room : List Pending → Phrase
  | [] => .expr
  | p :: _ => p.hole

open Pending (room)

inductive Stacked : List Pending → List TokenKind → Prop
  | nil : Stacked [] []
  | cons {p stack ts us} (hs : Stacked stack ts) (hr : p.whole ≤ room stack) (hp : p.Reads us) :
      Stacked (p :: stack) (ts ++ us)

def Header.whole : Header → Phrase
  | assignName _ | assignSign .. => .expr
  | _ => .base

inductive Header.Reads : Header → List TokenKind → Prop
  | assignName {start} : Reads (.assignName start) [.keyword .set]
  | assignSign {start x} : Reads (.assignSign start x) [.keyword .set, .name x]
  | forName {start} : Reads (.forName start) [.keyword .for_]
  | forFrom {start x} : Reads (.forFrom start x) [.keyword .for_, .name x]
  | functionName {start} : Reads (.functionName start) [.keyword .fn]
  | functionOpening {start name} :
      Reads (.functionOpening start name) [.keyword .fn, .name name]
  | firstParam {start name} :
      Reads (.firstParam start name)
        (.keyword .fn :: name.toList.map TokenKind.name ++ [.symbol .opening])
  | nextParam {start name params} (h : params ≠ []) :
      Reads (.nextParam start name params)
        (.keyword .fn :: name.toList.map TokenKind.name ++ .symbol .opening ::
          separated (params.map fun x => [TokenKind.name x]) ++ [.symbol .comma])
  | afterParam {start name params} (h : params ≠ []) :
      Reads (.afterParam start name params)
        (.keyword .fn :: name.toList.map TokenKind.name ++ .symbol .opening ::
          separated (params.map fun x => [TokenKind.name x]))
  | functionArrow {start name params} :
      Reads (.functionArrow start name params)
        (.keyword .fn :: name.toList.map TokenKind.name ++ .symbol .opening ::
          separated (params.map fun x => [TokenKind.name x]) ++ [.symbol .closing])

def Slot.phrase : Slot → Phrase
  | expression | argument => .expr
  | comparison => .comparison
  | operand => .factor

namespace ReadState

inductive Reads : ReadState → List TokenKind → Prop
  | want {slot stack ts} (hs : Stacked stack ts) (hr : slot.phrase ≤ room stack) :
      Reads ⟨.want slot, stack⟩ ts
  | arguments {callee stack ts us} (hs : Stacked stack ts) (d : base.Derives us callee.erase) :
      Reads ⟨.arguments callee, stack⟩ (ts ++ us ++ [.symbol .opening])
  | header {h stack ts us} (hs : Stacked stack ts) (hr : h.whole ≤ room stack) (hh : h.Reads us) :
      Reads ⟨.header h, stack⟩ (ts ++ us)
  | callable {e stack ts us} (hs : Stacked stack ts) (d : base.Derives us e.erase) :
      Reads ⟨.operand e true, stack⟩ (ts ++ us)
  | called {e stack ts us} (hs : Stacked stack ts) (d : call.Derives us e.erase) :
      Reads ⟨.operand e false, stack⟩ (ts ++ us)

variable {stack : List Pending} {s s' : ReadState} {ts us : List TokenKind} {t : Token}
  {e e' : SourceExpr} {p : Phrase}

theorem Reads.of_eq (h : s.Reads ts) (hts : ts = us) : s.Reads us :=
  hts ▸ h

theorem Reads.enter {q : Pending} (hs : Stacked stack ts) (hw : q.whole ≤ room stack)
    (hq : q.Reads us) (hh : q.hole = .expr) :
    Reads ⟨.want .expression, q :: stack⟩ (ts ++ us) := by
  refine .want (.cons hs hw hq) ?_
  rw [room, hh]
  exact le_rfl

theorem factor_le_room (stack : List Pending) : factor ≤ room stack := by
  cases stack with
  | nil => exact le_expr _
  | cons p stack =>
    cases p with
    | operator _ op => exact (show factor ≤ op.operand by cases op <;> decide)
    | unary op _ => exact (show factor ≤ op.phrase by cases op <;> decide)
    | _ => exact le_expr _

theorem base_le_room (stack : List Pending) : base ≤ room stack :=
  le_trans (by decide) (factor_le_room stack)

theorem call_le_room (stack : List Pending) : call ≤ room stack :=
  le_trans (by decide) (factor_le_room stack)

theorem reads_begin {slot : Slot} (hs : Stacked stack ts) (hr : slot.phrase ≤ room stack)
    (h : begin? slot t stack = some s) : s.Reads (ts ++ [t.kind]) := by
  have sign : ∀ {op : UnaryOp}, op ≠ .not → t.kind = op.token →
      Reads ⟨.want .operand, .unary op t.span.start :: stack⟩ (ts ++ [t.kind]) := by
    intro op hop hk
    have hf : op.phrase = .factor := by cases op <;> simp [UnaryOp.phrase] at hop ⊢
    refine .want (.cons hs ?_ (hk ▸ .unary)) ?_
    · exact (show op.phrase ≤ room stack from hf ▸ factor_le_room stack)
    · exact (show factor ≤ op.phrase from hf ▸ le_rfl)
  unfold begin? at h
  split at h
  case h_1 n hk => cases h; exact hk ▸ .callable hs .number
  case h_2 x hk => cases h; exact hk ▸ .callable hs .text
  case h_3 x hk => cases h; exact hk ▸ .callable hs .name
  case h_4 hk => cases h; exact sign (by decide) hk
  case h_5 hk => cases h; exact sign (by decide) hk
  case h_6 hk => cases h; exact .enter hs (base_le_room _) (hk ▸ .group) rfl
  case h_7 hk =>
    split at h
    · cases h
    · rename_i hslot
      cases h
      have hc : comparison ≤ slot.phrase := by revert hslot; cases slot <;> decide
      exact hk ▸ .want (.cons hs (hc.trans hr) .unary) le_rfl
  case h_8 hk =>
    split at h
    · rename_i hslot
      cases h
      have hc : expr ≤ slot.phrase := by revert hslot; cases slot <;> decide
      exact hk ▸ .header hs (hc.trans hr) .assignName
    · cases h
  case h_9 hk =>
    cases h
    exact .enter hs (base_le_room _) (hk ▸ .armTest .nil) rfl
  case h_10 hk => cases h; exact hk ▸ .header hs (base_le_room _) .forName
  case h_11 hk => cases h; exact .enter hs (base_le_room _) (hk ▸ .whileTest) rfl
  case h_12 hk => cases h; exact hk ▸ .header hs (base_le_room _) .functionName
  case h_13 => cases h

theorem reads_header {h : Header} (hs : Stacked stack ts) (hr : h.whole ≤ room stack)
    (hh : h.Reads us) {k : TokenKind} (hc : h.continue? k stack = some s) :
    s.Reads (ts ++ us ++ [k]) := by
  have move : ∀ {h' : Header} {ws : List TokenKind}, h'.whole = h.whole → h'.Reads ws →
      ws = us ++ [k] → Reads ⟨.header h', stack⟩ (ts ++ us ++ [k]) := by
    intro h' ws hw hh' hws
    exact (Reads.header hs (hw ▸ hr) hh').of_eq (by simp [hws])
  have enter : ∀ {q : Pending} {ws : List TokenKind}, q.whole = h.whole → q.Reads ws →
      q.hole = .expr → ws = us ++ [k] →
      Reads ⟨.want .expression, q :: stack⟩ (ts ++ us ++ [k]) := by
    intro q ws hw hq hh' hws
    exact (Reads.enter hs (hw ▸ hr) hq hh').of_eq (by simp [hws])
  cases hh <;> simp only [Header.continue?] at hc <;> split at hc <;> cases hc
  · exact move rfl .assignSign rfl
  · exact enter rfl .assign rfl rfl
  · exact move rfl .forFrom rfl
  · exact enter rfl .forFirst rfl rfl
  · exact move rfl .functionOpening rfl
  · exact move rfl .firstParam rfl
  · exact move rfl .firstParam rfl
  · exact move rfl (.afterParam (List.cons_ne_nil _ [])) (by simp [separated])
  · exact move rfl .functionArrow (by simp [separated])
  · rename_i params hne _ x
    obtain ⟨y, ys, rfl⟩ := List.exists_cons_of_ne_nil hne
    exact move rfl (.afterParam (List.cons_ne_nil y (ys ++ [x]))) (by simp [separated])
  · rename_i hne _
    exact move rfl (.nextParam hne) (by simp)
  · exact move rfl .functionArrow (by simp)
  · exact enter rfl .functionBody rfl (by simp)

theorem reads_continue {q : Pending} {vs : List TokenKind} (hs : Stacked stack ts)
    (hr : q.whole ≤ room stack) (hq : q.Reads us) (d : q.hole.Derives vs e.erase)
    (hc : q.continue? e t stack = some s) : s.Reads (ts ++ us ++ vs ++ [t.kind]) := by
  have next : ∀ {q' : Pending} {ws : List TokenKind}, q'.whole ≤ room stack → q'.Reads ws →
      q'.hole = .expr → ws = us ++ vs ++ [t.kind] →
      Reads ⟨.want .expression, q' :: stack⟩ (ts ++ us ++ vs ++ [t.kind]) := by
    intro q' ws hw hq' hh hws
    exact (Reads.enter hs hw hq' hh).of_eq (by simp [hws])
  have hq' := hq
  cases hq with
  | group =>
    simp only [Pending.continue?] at hc
    split at hc
    · rename_i hk
      cases hc
      exact (Reads.callable hs (.group d)).of_eq (by simp [hk])
    · cases hc
  | @argument callee given =>
    simp only [Pending.continue?] at hc
    split at hc
    · rename_i hk
      cases hc
      exact next hr (hk ▸ hq'.comma d) rfl rfl
    · rename_i hk
      cases hc
      exact (Reads.called hs (hq'.closing d (callee.ann.through t.span))).of_eq (by simp [hk])
    · cases hc
  | armTest h =>
    simp only [Pending.continue?] at hc
    split at hc
    · rename_i hk
      cases hc
      exact next hr (.armBody h d) rfl (by simp [hk])
    · cases hc
  | armBody =>
    simp only [Pending.continue?] at hc
    split at hc
    · rename_i hk
      cases hc
      exact next hr (hk ▸ hq'.elif d) rfl rfl
    · rename_i hk
      cases hc
      exact next hr (hk ▸ hq'.else_ d) rfl rfl
    · cases hc
  | forFirst =>
    simp only [Pending.continue?] at hc
    split at hc
    · rename_i hk
      cases hc
      exact next hr (.forBound d) rfl (by simp [hk])
    · cases hc
  | forBound di =>
    simp only [Pending.continue?] at hc
    split at hc
    · rename_i hk
      cases hc
      exact next hr (.forStep di d) rfl (by simp [hk])
    · rename_i hk
      cases hc
      exact next hr (.forBody (f := none) di d (by simp) rfl) rfl (by simp [introduced, hk])
    · cases hc
  | forStep di dj =>
    simp only [Pending.continue?] at hc
    split at hc
    · rename_i hk
      cases hc
      refine next hr (.forBody (f := some (vs, e.erase)) di dj ?_ rfl) rfl ?_
      · rintro _ ⟨⟩
        exact d
      · simp [introduced, hk]
    · cases hc
  | whileTest =>
    simp only [Pending.continue?] at hc
    split at hc
    · rename_i hk
      cases hc
      exact next hr (.whileBody d) rfl (by simp [hk])
    · cases hc
  | _ => cases hc

theorem reads_collapse (op : BinaryOp) (e : SourceExpr) (stack : List Pending)
    (hs : Stacked stack ts) (d : p.Derives us e.erase) (hp : p ≤ op.chain) (hr : p ≤ room stack) :
    ∃ ts' us', ts ++ us = ts' ++ us' ∧ Stacked (collapse op e stack).2 ts' ∧
      op.chain.Derives us' (collapse op e stack).1.erase ∧
      op.chain ≤ room (collapse op e stack).2 := by
  -- The operand on the left of `op` grows while operators are closed. It always fits a chain of
  -- `op`, as far as it has come, and what is left of the stack has room for it.
  fun_induction collapse op e stack generalizing p ts us with
  | case1 e left op' stack hop ih =>
    obtain _ | ⟨hs, hw, hq⟩ := hs
    obtain ⟨d', -⟩ := hq.finish (d.mono hr) rfl
    have hle : op'.chain ≤ op.chain := by
      revert hop
      cases op <;> cases op' <;> decide
    simpa using ih hs d' hle hw
  | case2 e left op' stack hop =>
    -- an operator that binds less tightly has room for a whole chain of `op` behind it
    have hle : op.chain ≤ op'.operand := by
      revert hop
      cases op <;> cases op' <;> decide
    exact ⟨ts, us, rfl, hs, d.mono hp, hle⟩
  | case3 e op' start stack hop ih =>
    obtain _ | ⟨hs, hw, hq⟩ := hs
    obtain ⟨d', -⟩ := hq.finish (d.mono hr) rfl
    have hle : op'.phrase ≤ op.chain := by
      revert hop
      cases op <;> cases op' <;> decide
    simpa using ih hs d' hle hw
  | case4 e op' start stack hop =>
    have hle : op.chain ≤ op'.phrase := by
      revert hop
      cases op <;> cases op' <;> decide
    exact ⟨ts, us, rfl, hs, d.mono hp, hle⟩
  | case5 e stack hop hun =>
    have hroom : room stack = .expr := by
      cases stack with
      | nil => rfl
      | cons q stack => cases q <;> first | rfl | simp at hop hun
    exact ⟨ts, us, rfl, hs, d.mono hp, hroom ▸ le_expr _⟩

theorem reads_close (hs : Stacked stack ts) (d : p.Derives us e.erase) (hr : p ≤ room stack)
    (h : close t e stack = .ok s) : s.Reads (ts ++ us ++ [t.kind]) := by
  fun_induction close t e stack generalizing p ts us with
  | case1 => cases h
  | case2 e q stack s' hc =>
    cases h
    obtain _ | ⟨hs, hw, hq⟩ := hs
    simpa using reads_continue hs hw hq (d.mono hr) hc
  | case3 => cases h
  | case4 e q stack _ e' hk hf =>
    cases h
    obtain _ | ⟨hs, hw, hq⟩ := hs
    obtain ⟨d', hb⟩ := hq.finish (d.mono hr) hf
    rw [hb rfl] at d'
    simpa [hk] using Reads.arguments hs d'
  | case5 e q stack _ e' c hf _ ih =>
    obtain _ | ⟨hs, hw, hq⟩ := hs
    obtain ⟨d', -⟩ := hq.finish (d.mono hr) hf
    simpa using ih hs d' hw h

theorem derives_settle (hs : Stacked stack ts) (d : p.Derives us e.erase) (hr : p ≤ room stack)
    (h : settle e stack = .ok e') : expr.Derives (ts ++ us) e'.erase := by
  fun_induction settle e stack generalizing p ts us with
  | case1 =>
    cases h
    cases hs
    exact d.to_expr
  | case2 => cases h
  | case3 e q stack e'' c hf ih =>
    obtain _ | ⟨hs, hw, hq⟩ := hs
    obtain ⟨d', -⟩ := hq.finish (d.mono hr) hf
    simpa using ih hs d' hw h

theorem reads_operand {c : Bool} (hs : Stacked stack ts) (d : call.Derives us e.erase)
    (hb : c = true → base.Derives us e.erase)
    (hf : ReadState.feed ⟨.operand e c, stack⟩ t = .ok s) : s.Reads (ts ++ us ++ [t.kind]) := by
  simp only [feed] at hf
  split at hf
  · rename_i op hop
    cases hf
    have hc : call ≤ op.chain := by cases op <;> decide
    obtain ⟨ts', us', heq, hs', d', hr'⟩ :=
      reads_collapse op e stack hs d hc (call_le_room stack)
    have hr : (slotAfter op).phrase ≤ op.operand := by cases op <;> decide
    rw [heq, TokenKind.binaryOp?_eq_some.1 hop, List.append_assoc]
    exact .want (.cons hs' hr' (.operator d')) hr
  · split at hf
    · rename_i hk
      cases hf
      exact hk ▸ .arguments hs (hb rfl)
    · -- a call fits any stack, so finishing may begin with it
      exact reads_close hs d (call_le_room stack) hf

theorem Reads.feed (h : s.Reads ts) (hf : s.feed t = .ok s') : s'.Reads (ts ++ [t.kind]) := by
  cases h with
  | @want slot stack _ hs hr =>
    simp only [ReadState.feed] at hf
    cases hb : begin? slot t stack with
    | none => simp [hb] at hf
    | some s'' =>
      obtain rfl : s'' = s' := by simpa [hb] using hf
      exact reads_begin hs hr hb
  | @arguments callee stack _ us hs d =>
    simp only [ReadState.feed] at hf
    split at hf
    · rename_i hk
      cases hf
      have d' := @Derives.call _ _ [] d (by simp)
      exact (Reads.called hs (by simpa [separated] using d')).of_eq (by simp [hk])
    · have hs' : Stacked (.argument callee [] :: stack) _ :=
        .cons hs (call_le_room stack) (.argument d .nil)
      cases hb : begin? .argument t (.argument callee [] :: stack) with
      | none => simp [hb] at hf
      | some s'' =>
        obtain rfl : s'' = s' := by simpa [hb] using hf
        exact (reads_begin hs' le_rfl hb).of_eq (by simp [separated, commaAfter])
  | @header h stack _ _ hs hr hh =>
    simp only [ReadState.feed] at hf
    cases hc : h.continue? t.kind stack with
    | none => simp [hc] at hf
    | some s'' =>
      obtain rfl : s'' = s' := by simpa [hc] using hf
      exact reads_header hs hr hh hc
  | callable hs d => exact reads_operand hs (d.mono (by decide)) (fun _ => d) hf
  | called hs d => exact reads_operand hs d (fun h => by cases h) hf

theorem Reads.finish (h : s.Reads ts) (hf : s.finish = .ok e) : expr.Derives ts e.erase := by
  cases h with
  | callable hs d => exact derives_settle hs d (base_le_room _) hf
  | called hs d => exact derives_settle hs d (call_le_room _) hf
  | _ => cases hf

theorem reads_start : start.Reads [] :=
  .want .nil le_rfl

def feedAll (s : ReadState) (ts : List Token) : Except Expectation ReadState :=
  ts.foldlM feed s

theorem feedAll_cons (s : ReadState) (t : Token) (ts : List Token) :
    s.feedAll (t :: ts) = (s.feed t).bind fun s' => s'.feedAll ts := by
  rw [feedAll, List.foldlM_cons]
  rfl

theorem feedAll_append (s : ReadState) (ts us : List Token) :
    s.feedAll (ts ++ us) = (s.feedAll ts).bind fun s' => s'.feedAll us := by
  rw [feedAll, List.foldlM_append]
  rfl

theorem Reads.feedAll {ts : List Token} (h : s.Reads us) (hf : s.feedAll ts = .ok s') :
    s'.Reads (us ++ ts.map Token.kind) := by
  induction ts generalizing s us with
  | nil =>
    cases hf
    simpa using h
  | cons t ts ih =>
    rw [feedAll_cons] at hf
    cases ht : s.feed t with
    | error x => simp [ht, Except.bind] at hf
    | ok s'' =>
      rw [ht] at hf
      simpa using ih (h.feed ht) hf

end ReadState

end ArrowScript
