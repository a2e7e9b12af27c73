import Reparse.Proofs.DocumentRuns

/-!
# What a document shows

A policy hides warnings and cuts the list, and neither shows in the order of what is left. So a
document shows the beginning of what a document that shows everything does, warnings apart. That
list holds what scanning and parsing found, ordered by where it starts; what starts together keeps
the order in which it was found, scanning first.
-/

namespace Reparse

namespace Diagnostic

def ordered (ds : List Diagnostic) : List Diagnostic := ds.mergeSort fun a b => a.start ≤ b.start

def startingAt (o : Nat) (ds : List Diagnostic) : List Diagnostic := ds.filter (·.start = o)

variable {ds es : List Diagnostic} {d : Diagnostic} {o : Nat}

theorem mem_startingAt : d ∈ startingAt o ds ↔ d ∈ ds ∧ d.start = o := by
  rw [startingAt, List.mem_filter, decide_eq_true_eq]

theorem start_le_trans (a b c : Diagnostic) (hab : decide (a.start ≤ b.start) = true)
    (hbc : decide (b.start ≤ c.start) = true) : decide (a.start ≤ c.start) = true :=
  decide_eq_true (Nat.le_trans (of_decide_eq_true hab) (of_decide_eq_true hbc))

theorem start_le_total (a b : Diagnostic) :
    (decide (a.start ≤ b.start) || decide (b.start ≤ a.start)) = true := by
  rw [Bool.or_eq_true, decide_eq_true_eq, decide_eq_true_eq]
  exact Nat.le_total ..

theorem ordered_perm (ds : List Diagnostic) : (ordered ds).Perm ds := List.mergeSort_perm ..

theorem pairwise_ordered (ds : List Diagnostic) : (ordered ds).Pairwise (·.start ≤ ·.start) :=
  (List.pairwise_mergeSort start_le_trans start_le_total ds).imp of_decide_eq_true

theorem ordered_of_pairwise (h : ds.Pairwise (·.start ≤ ·.start)) : ordered ds = ds :=
  List.mergeSort_of_pairwise (h.imp decide_eq_true)

theorem startingAt_ordered (o : Nat) (ds : List Diagnostic) :
    startingAt o (ordered ds) = startingAt o ds := by
  have htogether : (startingAt o ds).Pairwise fun a b => decide (a.start ≤ b.start) = true := by
    refine List.Pairwise.imp_of_mem (R := fun _ _ => True) (fun ha hb _ => ?_)
      (List.pairwise_of_forall fun _ _ => trivial)
    have hstart := (mem_startingAt.mp ha).2.trans (mem_startingAt.mp hb).2.symm
    exact decide_eq_true (Nat.le_of_eq hstart)
  have hkept : (startingAt o ds).Sublist (ordered ds) :=
    List.sublist_mergeSort start_le_trans start_le_total htogether List.filter_sublist
  have hfilter := hkept.filter (·.start = o)
  have hall : (startingAt o ds).filter (·.start = o) = startingAt o ds :=
    List.filter_eq_self.mpr fun d hd => decide_eq_true (mem_startingAt.mp hd).2
  rw [hall] at hfilter
  exact (hfilter.eq_of_length ((ordered_perm ds).filter _).length_eq.symm).symm

theorem mem_iff_of_startingAt (h : ∀ o, startingAt o ds = startingAt o es) : d ∈ ds ↔ d ∈ es := by
  have hd : d ∈ startingAt d.start ds ↔ d ∈ startingAt d.start es := by rw [h]
  rwa [mem_startingAt, mem_startingAt, and_iff_left rfl, and_iff_left rfl] at hd

theorem start_head_le (h : (d :: ds).Pairwise (·.start ≤ ·.start)) {e : Diagnostic}
    (he : e ∈ d :: ds) : d.start ≤ e.start := by
  rcases List.mem_cons.mp he with rfl | he
  · exact Nat.le_refl _
  · exact (List.pairwise_cons.mp h).1 e he

theorem eq_of_startingAt (hds : ds.Pairwise (·.start ≤ ·.start))
    (hes : es.Pairwise (·.start ≤ ·.start)) (h : ∀ o, startingAt o ds = startingAt o es) :
    ds = es := by
  induction ds generalizing es with
  | nil =>
    cases es with
    | nil => rfl
    | cons e es => exact absurd ((mem_iff_of_startingAt h).mpr List.mem_cons_self) List.not_mem_nil
  | cons d ds ih =>
    cases es with
    | nil => exact absurd ((mem_iff_of_startingAt h).mp List.mem_cons_self) List.not_mem_nil
    | cons e es =>
      have hstart : d.start = e.start :=
        Nat.le_antisymm (start_head_le hds ((mem_iff_of_startingAt h).mpr List.mem_cons_self))
          (start_head_le hes ((mem_iff_of_startingAt h).mp List.mem_cons_self))
      have hfirst := h d.start
      simp only [startingAt, List.filter_cons, decide_true, if_true, hstart] at hfirst
      obtain ⟨rfl, -⟩ := List.cons_eq_cons.mp hfirst
      congr 1
      refine ih (List.pairwise_cons.mp hds).2 (List.pairwise_cons.mp hes).2 fun o => ?_
      have ho := h o
      simp only [startingAt, List.filter_cons] at ho
      split at ho
      · exact (List.cons_eq_cons.mp ho).2
      · exact ho

theorem filter_ordered (p : Diagnostic → Bool) (ds : List Diagnostic) :
    (ordered ds).filter p = ordered (ds.filter p) := by
  refine eq_of_startingAt ((pairwise_ordered ds).filter p) (pairwise_ordered _) fun o => ?_
  have hswap (es : List Diagnostic) : startingAt o (es.filter p) = (startingAt o es).filter p := by
    rw [startingAt, startingAt, List.filter_filter, List.filter_filter]
    exact List.filter_congr fun d _ => Bool.and_comm ..
  rw [hswap, startingAt_ordered, startingAt_ordered, hswap]

end Diagnostic

namespace Policy

open Diagnostic (ordered)

def keep (p : Policy) (ds : List Diagnostic) : List Diagnostic :=
  if p.warnings then ds else ds.filter Diagnostic.isError

def cut (p : Policy) (ds : List Diagnostic) : List Diagnostic :=
  if p.limit = 0 then ds else ds.take p.limit

theorem finish_eq (p : Policy) (ds : List Diagnostic) :
    p.finish ds = p.cut (ordered (p.keep ds)) := rfl

theorem finish_unlimited (ds : List Diagnostic) : unlimited.finish ds = ordered ds := rfl

theorem ordered_keep (p : Policy) (ds : List Diagnostic) :
    ordered (p.keep ds) = p.keep (ordered ds) := by
  unfold keep
  split
  · rfl
  · exact (Diagnostic.filter_ordered ..).symm

theorem finish_eq_cut_keep (p : Policy) (ds : List Diagnostic) :
    p.finish ds = p.cut (p.keep (unlimited.finish ds)) := by
  rw [finish_eq, ordered_keep, finish_unlimited]

theorem cut_sublist (p : Policy) (ds : List Diagnostic) : (p.cut ds).Sublist ds := by
  unfold cut
  split
  · exact .refl ds
  · exact List.take_sublist ..

theorem cut_cut (p : Policy) (ds : List Diagnostic) : p.cut (p.cut ds) = p.cut ds := by
  unfold cut
  split
  · rfl
  · rw [List.take_take, Nat.min_self]

theorem keep_finish (p : Policy) (ds : List Diagnostic) : p.keep (p.finish ds) = p.finish ds := by
  have hsub : (p.finish ds).Sublist (p.keep (ordered ds)) := by
    rw [finish_eq, ordered_keep]
    exact p.cut_sublist _
  cases hwarnings : p.warnings with
  | true => simp only [keep, hwarnings, if_true]
  | false =>
    simp only [keep, hwarnings, Bool.false_eq_true, if_false] at hsub ⊢
    exact List.filter_eq_self.mpr fun d hd => List.of_mem_filter (hsub.subset hd)

theorem finish_finish (p : Policy) (ds : List Diagnostic) :
    p.finish (p.finish ds) = p.finish ds := by
  have hordered : (p.finish ds).Pairwise (·.start ≤ ·.start) :=
    (Diagnostic.pairwise_ordered _).sublist (p.cut_sublist _)
  rw [finish_eq, keep_finish, Diagnostic.ordered_of_pairwise hordered, finish_eq, cut_cut]

end Policy

namespace Document

/-- The documents are at the same point, and differ in what they show. -/
structure SameWork (d d' : Document) : Prop where
  stream : d.stream = d'.stream
  memo : d.memo = d'.memo
  parsed : d.parsed?.isSome = d'.parsed?.isSome

namespace SameWork

variable {d d' : Document}

theorem parse (h : d.SameWork d') : d.parse.2.SameWork d'.parse.2 := by
  have hparsed := h.parsed
  cases hd : d.parsed? with
  | some parsed =>
    rw [hd] at hparsed
    obtain ⟨parsed', hd'⟩ := Option.isSome_iff_exists.mp hparsed.symm
    rw [parse_of_some hd, parse_of_some hd']
    exact h
  | none =>
    rw [hd] at hparsed
    have hd' : d'.parsed? = none :=
      Option.isNone_iff_eq_none.mp (Option.isSome_eq_false_iff.mp hparsed.symm)
    have hrun : d.run.2 = d'.run.2 := by rw [snd_run, snd_run, h.stream, h.memo]
    rw [parse_of_none hd, parse_of_none hd']
    exact ⟨congrArg Prod.fst hrun, congrArg Prod.snd hrun,
      Option.isSome_some.trans Option.isSome_some.symm⟩

theorem perform (h : d.SameWork d') (op : DocumentOp) :
    (d.perform op).SameWork (d'.perform op) := by
  cases op with
  | load source =>
    rcases Nat.lt_or_ge maxCoordinate (Text.size source) with hlt | hle
    · simp only [Document.perform, d.load_of_lt hlt, d'.load_of_lt hlt]
      exact h
    · simp only [Document.perform, d.load_of_le hle, d'.load_of_le hle]
      exact ⟨rfl, rfl, rfl⟩
  | edit start count inserted =>
    cases hedit : d.stream.edit start count inserted with
    | error e s' =>
      rw [perform_edit_of_error hedit, perform_edit_of_error (h.stream ▸ hedit)]
      exact h
    | ok m s' =>
      rw [perform_edit_of_ok hedit, perform_edit_of_ok (h.stream ▸ hedit), h.memo]
      exact ⟨rfl, rfl, rfl⟩
  | parse => exact h.parse
  | diagnostics => exact h.parse
  | stats => exact h.parse
  | nodeAt p => exact h.parse

theorem run_ops (h : d.SameWork d') (ops : List DocumentOp) :
    (ops.foldl Document.perform d).SameWork (ops.foldl Document.perform d') := by
  induction ops generalizing d d' with
  | nil => exact h
  | cons op ops ih => exact ih (h.perform op)

end SameWork

theorem Settled.diagnostics {d : Document} {policy : Policy} (h : d.Settled policy) :
    d.parse.1.diagnostics = policy.finish (d.parse.2.stream.diagnostics ++
      (Reparse.parse d.stream d.memo).1.reports.map
        (Report.diagnostic d.parse.2.stream.timeline.resolve)) := by
  obtain ⟨hcurrent, hstream, -⟩ := h.parse
  have hread := h.session.follows (TokenStream.follows_readAll h.session.numbered)
  obtain ⟨-, hreports⟩ := parse_eq_bare h.session.numbered (Session.trusted h.session) hread.memo
  rw [hcurrent.diagnostics, hstream, hreports]
  rfl

/-- Whatever has been done to a document: it shows what it would show under no limit and with
warnings, without the warnings if they are hidden, up to the limit. Shown in full are all faults
found in scanning and all found in parsing, each once, ordered by where they start; of those that
start together, the ones found in scanning come first, and each kind comes in the order it was found
in. To finish a list again changes nothing. -/
theorem diagnostics_run (policy : Policy) (ops : List DocumentOp) :
    let d := ops.foldl perform { policy }
    let full := (ops.foldl perform { policy := .unlimited }).parse.1.diagnostics
    let scanned := d.parse.2.stream.diagnostics
    let parsed := (Reparse.parse d.stream d.memo).1.reports.map
      (Report.diagnostic d.parse.2.stream.timeline.resolve)
    let shown := if policy.warnings then full else full.filter Diagnostic.isError
    d.parse.1.diagnostics = (if policy.limit = 0 then shown else shown.take policy.limit) ∧
      full.Perm (scanned ++ parsed) ∧
      full.Pairwise (·.start ≤ ·.start) ∧
      (∀ o, full.filter (·.start = o) =
        scanned.filter (·.start = o) ++ parsed.filter (·.start = o)) ∧
      ∀ (p : Policy) (ds : List Diagnostic), p.finish (p.finish ds) = p.finish ds := by
  intro d full scanned parsed shown
  have hstart : SameWork { policy } { policy := .unlimited } := ⟨rfl, rfl, rfl⟩
  have hsame := hstart.run_ops ops
  have hfull : full = Diagnostic.ordered (scanned ++ parsed) := by
    have h := ((Settled.new .unlimited).run_ops ops).diagnostics
    rw [← hsame.parse.stream, ← hsame.stream, ← hsame.memo] at h
    exact h.trans (Policy.finish_unlimited _)
  refine ⟨?_, ?_, ?_, fun o => ?_, Policy.finish_finish⟩
  · rw [((Settled.new policy).run_ops ops).diagnostics, Policy.finish_eq_cut_keep,
      Policy.finish_unlimited, ← hfull]
    rfl
  · exact hfull ▸ Diagnostic.ordered_perm _
  · exact hfull ▸ Diagnostic.pairwise_ordered _
  · rw [hfull, ← List.filter_append]
    exact Diagnostic.startingAt_ordered o _

end Document

end Reparse
