import Mathlib
import ArrowScript.Proofs.Provenance
import ArrowScript.Proofs.Release
import ArrowScript.Proofs.TreeSpans

/-! Positions in a session. Everything that a session produces comes from the trees of its sources,
and the spans of these lie in their sources. So each position that is met anywhere, from the tokens
to the frames of a traceback, is a true cursor into the text of one of the sources. -/

namespace ArrowScript

def Span.LiesInOne (sources : List Source) (s : Span) : Prop := ∃ source ∈ sources, s.LiesIn source

def Provenance.ofSources (sources : List Source) : Provenance where
  node := Expr.Every (Span.LiesInOne sources)
  span := Span.LiesInOne sources
  valueless := True
  ann h := h.ann
  child h hc := h.child hc
  lacking _ _ := trivial

def Outcome.Stems (S : Provenance) : Outcome → Prop
  | value v => v.Stems S
  | nothing => S.valueless
  | failed d => d.Stems S
  | exhausted => True

theorem Source.liesIn_tree? {source : Source} {e : SourceExpr} (h : source.tree? = some e) :
    SourceExpr.LiesIn source e := by
  have hread := Reading.liesIn_ofSource source
  unfold Reading.LiesIn at hread
  unfold Source.tree? at h
  dsimp only at h
  split at h
  · rename_i e' _ hout
    rw [hout] at hread
    cases h
    exact hread
  · cases h

namespace Session

variable {S : Provenance} {keep : Retention} {fuel : Nat} {s : Session} {sources : List Source}
  {source : Source}

/-- The evaluations that take part in a session: that of the tree of each source, and those that it
waits for. -/
inductive Evaluates (keep : Retention) (fuel : Nat) : Session → List Source → Evaluation → Prop
  | here {s source rest e t} (he : source.tree? = some e)
      (ht : Relation.ReflTransGen (Evaluation.Awaits keep) ⟨fuel, e, frame, s.machine⟩ t) :
      Evaluates keep fuel s (source :: rest) t
  | later {s source rest t}
      (h : Evaluates keep fuel (s.runWith keep fuel source).session rest t) :
      Evaluates keep fuel s (source :: rest) t

theorem stems_start (S : Provenance) : start.store.Stems S := by
  have hroot : Store.empty.addRoot.Stems S := by
    intro t x v hv
    rw [Store.bindings_addRoot] at hv
    simp [Store.bindings, Store.empty] at hv
  have hplain (b : Bool) : (Traced.plain (.ofBool b)).Stems S := by
    refine ⟨.of_function? rfl, ?_, ?_⟩
    · rintro _ ⟨⟩
    · rintro _ ⟨⟩
  exact ((hroot.define (hplain false)).define (hplain false)).define (hplain true)

theorem stems_frame (S : Provenance) : frame.Stems S := by
  rintro p ⟨⟩

theorem outcome_stems {r : EStateM.Result Halt Machine (Option Traced)}
    (h : S.Ends r) : (outcomeOf r).Stems S ∧ (Eval.final r).store.Stems S := by
  cases h with
  | value hv _ hm => exact ⟨hv, hm⟩
  | nothing h hm => exact ⟨h, hm⟩
  | failed hd hm => exact ⟨hd, hm⟩
  | exhausted hm => exact ⟨trivial, hm⟩

theorem evaluation_stems (fuel : Nat) {e : SourceExpr} (hsource : source ∈ sources)
    (he : SourceExpr.LiesIn source e) (hs : s.store.Stems (.ofSources sources)) :
    (Evaluation.mk fuel e frame s.machine).Stems (.ofSources sources) where
  node := he.mono fun _ h => ⟨source, hsource, h⟩
  frame := stems_frame _
  store := hs

theorem runWith_stems (keep : Retention) (fuel : Nat) (hsource : source ∈ sources)
    (hs : s.store.Stems (.ofSources sources)) :
    (s.runWith keep fuel source).outcome.Stems (.ofSources sources) ∧
      (s.runWith keep fuel source).session.store.Stems (.ofSources sources) := by
  obtain ⟨-, -, herror⟩ := TokenStream.liesIn_ofSource source
  have hread := Reading.liesIn_ofSource source
  -- faults that are found before anything is evaluated have no frame
  have hfault {d : Diagnostic} (hspan : d.span.LiesIn source) (hframe : d.frame? = none) :
      d.Stems (.ofSources sources) := by
    refine ⟨⟨source, hsource, hspan⟩, ?_, fun _ => trivial⟩
    rw [hframe]
    rintro _ ⟨⟩
  unfold Reading.LiesIn at hread
  unfold runWith
  dsimp only
  split
  · rename_i fault hf
    exact ⟨hfault (herror fault hf) rfl, hs⟩
  · split
    · rename_i f hf
      rw [hf] at hread
      exact ⟨hfault hread rfl, hs⟩
    · rename_i e he
      rw [he] at hread
      have ht := evaluation_stems fuel hsource hread hs
      have hends := outcome_stems (ht.outcome keep)
      obtain ⟨hout, hsession⟩ := evaluate_eq keep fuel s e
        [.lexed (TokenStream.ofSource source).tokens.length source.name, .parsed e.outline]
      rw [hout, hsession]
      exact hends

theorem runAllWith_stems {rest : List Source} (hrest : rest ⊆ sources)
    (hs : s.store.Stems (.ofSources sources)) :
    ∀ r ∈ s.runAllWith keep fuel rest,
      r.outcome.Stems (.ofSources sources) ∧ r.session.store.Stems (.ofSources sources) := by
  induction rest generalizing s with
  | nil => simp [runAllWith]
  | cons source rest ih =>
    have hrun := runWith_stems keep fuel (hrest List.mem_cons_self) hs
    exact List.forall_mem_cons.2 ⟨hrun, ih (fun _ h => hrest (List.mem_cons_of_mem _ h)) hrun.2⟩

theorem Evaluates.stems {rest : List Source} {t : Evaluation} (h : s.Evaluates keep fuel rest t)
    (hrest : rest ⊆ sources) (hs : s.store.Stems (.ofSources sources)) :
    t.Stems (.ofSources sources) := by
  induction h with
  | here he ht =>
    have hstart := evaluation_stems fuel (hrest List.mem_cons_self) (Source.liesIn_tree? he) hs
    exact hstart.reaches ht
  | later h ih =>
    have hrun := runWith_stems keep fuel (hrest List.mem_cons_self) hs
    exact ih (fun _ h => hrest (List.mem_cons_of_mem _ h)) hrun.2

/-- Tokens, trees and faults of each source of a session lie in it. The outcomes of its programs and
the values that they leave in the tables have spans that lie in one of the sources, and call sites
where such spans start. So has every evaluation that takes part: its nodes, its frame, the values in
the tables when it begins, its result or diagnostic, and the tables when it ends. -/
theorem positions_coherent (keep : Retention) (fuel : Nat) (sources : List Source) :
    (∀ source ∈ sources,
      (∀ t ∈ (TokenStream.ofSource source).tokens, t.span.LiesIn source) ∧
      (∀ fault ∈ (TokenStream.ofSource source).error?, fault.span.LiesIn source) ∧
      (Reading.ofTokens (TokenStream.ofSource source).tokens).LiesIn source) ∧
    (∀ r ∈ start.runAllWith keep fuel sources,
      r.outcome.Stems (.ofSources sources) ∧ r.session.store.Stems (.ofSources sources)) ∧
    (∀ r ∈ start.runAll sources,
      r.outcome.Stems (.ofSources sources) ∧ r.session.store.Stems (.ofSources sources)) ∧
    ∀ t, start.Evaluates keep fuel sources t → t.Stems (.ofSources sources) ∧
      (Provenance.ofSources sources).Ends (t.outcome keep) := by
  refine ⟨fun source _ => ?_, ?_, ?_, fun t ht => ?_⟩
  · obtain ⟨htokens, -, herror⟩ := TokenStream.liesIn_ofSource source
    exact ⟨htokens, herror, Reading.liesIn_ofSource source⟩
  · exact runAllWith_stems (List.Subset.refl _) (stems_start _)
  · rw [runAll_eq]
    exact runAllWith_stems (List.Subset.refl _) (stems_start _)
  · have hstems := ht.stems (List.Subset.refl _) (stems_start _)
    exact ⟨hstems, hstems.outcome keep⟩

end Session

end ArrowScript
