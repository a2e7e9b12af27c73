import Reparse.Proofs.MemoTransparency
import Reparse.Proofs.Relexing

/-!
# Parses of the same tokens

Two streams that have read the same source hold the same tokens under different numbers. Their
parses give the same tree and the same reports up to these numbers, and with all tokens placed they
give the same.
-/

namespace Reparse

open Reparse.Parser
open Lexeme (sights)

theorem Placement.seen_locationBehind {lines : Bool} {p q : Placement}
    (h : p.seen lines = q.seen lines) (size : Nat) :
    (p.locationBehind size).seen lines = (q.locationBehind size).seen lines := by
  cases lines with
  | true => exact congrArg (fun p : Placement => p.locationBehind size) h
  | false =>
    have hstart := Placement.start_of_seen h
    exact congrArg (fun n => (⟨.point (n + size), .point .origin⟩ : Location)) hstart

def PlacedInfo.seen (lines : Bool) (i : PlacedInfo) : PlacedInfo where
  extent? := i.extent?.map fun (first, last) => (first.seen lines, last.seen lines)
  comments := i.comments.map (PlacedToken.seen lines)

theorem PlacedInfo.seen_true (i : PlacedInfo) : i.seen true = i := by
  have htoken : PlacedToken.seen true = id := rfl
  have hextent : (fun e : PlacedToken × PlacedToken => (e.1.seen true, e.2.seen true)) = id := rfl
  simp only [PlacedInfo.seen, htoken, List.map_id]
  exact congrArg (PlacedInfo.mk · i.comments) (congrFun (hextent ▸ Option.map_id) i.extent?)

theorem Policy.map_seen_finish (lines : Bool) (policy : Policy) (ds : List Diagnostic) :
    (policy.finish ds).map (Diagnostic.seen lines) =
      policy.finish (ds.map (Diagnostic.seen lines)) := by
  have hstart : ∀ d : Diagnostic, (d.seen lines).start = d.start := fun d =>
    congrArg Span.start (Location.span_seen lines d.location)
  have hsort : ∀ ds : List Diagnostic,
      (ds.mergeSort fun a b => a.start ≤ b.start).map (Diagnostic.seen lines) =
        (ds.map (Diagnostic.seen lines)).mergeSort fun a b => a.start ≤ b.start := fun ds =>
    List.map_mergeSort fun a _ b _ => by rw [hstart, hstart]
  have hfilter : (ds.filter Diagnostic.isError).map (Diagnostic.seen lines) =
      (ds.map (Diagnostic.seen lines)).filter Diagnostic.isError := by
    rw [List.filter_map]
    rfl
  unfold Policy.finish
  cases policy.warnings with
  | true =>
    by_cases hlimit : policy.limit = 0
    · simp only [if_true, if_pos hlimit, hsort]
    · simp only [if_true, if_neg hlimit, List.map_take, hsort]
  | false =>
    by_cases hlimit : policy.limit = 0
    · simp only [Bool.false_eq_true, if_false, if_pos hlimit, hsort, hfilter]
    · simp only [Bool.false_eq_true, if_false, if_neg hlimit, List.map_take, hsort, hfilter]

/-- The two timelines give the same coordinates to a piece and to the piece it is renumbered to.
Lines and columns count only if `lines` is set. -/
def Carries (lines : Bool) (ρ : TokenId → TokenId) (t t' : Timeline) : Prop :=
  ∀ x, (t'.placement (ρ x)).seen lines = (t.placement x).seen lines

namespace Carries

variable {lines : Bool} {ρ : TokenId → TokenId} {t t' : Timeline}

theorem location (h : Carries lines ρ t t') (token : Token) :
    (t'.location (renumber ρ token)).seen lines = (t.location token).seen lines := by
  have hplacement := h token.id
  have hid : (renumber ρ token).id = ρ token.id := rfl
  have hsize : (renumber ρ token).size = token.size := rfl
  rw [Timeline.location, Timeline.location, hid, hsize, Placement.seen_location, hplacement,
    ← Placement.seen_location]

theorem placeToken (h : Carries lines ρ t t') (token : Token) :
    (t'.placeToken (renumber ρ token)).seen lines = (t.placeToken token).seen lines := by
  have hlocation := h.location token
  exact congrArg (fun l => (⟨token.kind, token.text, l⟩ : PlacedToken)) hlocation

theorem placeInfo (h : Carries lines ρ t t') (info : Info) :
    (t'.placeInfo (renumber ρ info)).seen lines = (t.placeInfo info).seen lines := by
  obtain ⟨extent?, comments⟩ := info
  have hcomments : ((renumber ρ comments).map t'.placeToken).map (PlacedToken.seen lines) =
      (comments.map t.placeToken).map (PlacedToken.seen lines) := by
    have hrenumber : renumber ρ comments = comments.map (renumber ρ) := rfl
    rw [hrenumber, List.map_map, List.map_map, List.map_map]
    exact List.map_congr_left fun token _ => h.placeToken token
  cases extent? with
  | none => exact congrArg (PlacedInfo.mk none) hcomments
  | some s =>
    have hextent := congrArg₂ Prod.mk (h.placeToken s.first) (h.placeToken s.last)
    exact congrArg₂ (fun x => PlacedInfo.mk (some x)) hextent hcomments

theorem program (h : Carries lines ρ t t') (p : Program Info) :
    ((renumber ρ p).map fun i => (t'.placeInfo i).seen lines) =
      p.map fun i => (t.placeInfo i).seen lines := by
  have hsame : (fun i => (t'.placeInfo i).seen lines) ∘ (renumber ρ : Info → Info) =
      fun i => (t.placeInfo i).seen lines := funext h.placeInfo
  rw [← hsame, ← Program.map_map]
  rfl

theorem resolve (h : Carries lines ρ t t') (a : Anchor) :
    (t'.resolve (renumber ρ a)).seen lines = (t.resolve a).seen lines := by
  cases a with
  | token a => exact h.location a
  | tokens a b => exact Location.seen_merge (h.location a) (h.location b)
  | behind a => exact Placement.seen_locationBehind (h a.id) a.size
  | fixed l => rfl

theorem diagnostic (h : Carries lines ρ t t') (r : Report Anchor) :
    ((renumber ρ r).diagnostic t'.resolve).seen lines = (r.diagnostic t.resolve).seen lines := by
  obtain ⟨code, args, anchor⟩ := r
  cases anchor with
  | none => rfl
  | some a => exact congrArg (Diagnostic.ofReport code args) (h.resolve a)

theorem diagnostics (h : Carries lines ρ t t') (rs : List (Report Anchor)) :
    ((renumber ρ rs).map (Report.diagnostic t'.resolve)).map (Diagnostic.seen lines) =
      (rs.map (Report.diagnostic t.resolve)).map (Diagnostic.seen lines) := by
  have hrenumber : renumber ρ rs = rs.map (renumber ρ) := rfl
  rw [hrenumber, List.map_map, List.map_map, List.map_map]
  exact List.map_congr_left fun r _ => h.diagnostic r

end Carries

theorem bareProgram_renumber {A B : Array Token} {ρ : TokenId → TokenId}
    (h : B = renumber ρ A) : (bareProgram B).1 = renumber ρ (bareProgram A).1 ∧
      (bareProgram B).2.reports = renumber ρ (bareProgram A).2.reports := by
  have hsize : B.size = A.size := by
    rw [h]
    exact Array.size_map ..
  have hslot : ∀ i, B[i]? = renumber ρ A[i]? := fun i => by
    rw [h]
    exact Array.getElem?_map ..
  have hagrees : ∀ r, (Window.mk A B ρ 0 0).Agrees r := by
    refine fun r => ⟨fun {a b} hab _ _ => ?_, fun _ => ?_⟩
    · have heq : a = b := Nat.add_right_cancel hab
      rw [heq]
      exact hslot b
    · rw [Array.back?_eq_getElem?, Array.back?_eq_getElem?, hsize]
      exact hslot _
  have hmatch := (Grammar.alike_program rfl rfl).twin {} (trusted_bare B)
    (.bare ρ (Nat.zero_le A.size) (Nat.zero_le B.size)) (Nat.zero_le _) (Nat.zero_le _) (hagrees _)
  obtain ⟨new, hleft, hright⟩ := hmatch.twins.reports
  refine ⟨hmatch.value, ?_⟩
  rw [ParseState.bare_reports, Array.empty_append] at hleft hright
  rw [show (bareProgram B).2.reports = _ from hright, show (bareProgram A).2.reports = _ from hleft]

namespace TokenStream

variable {lines : Bool} {s : TokenStream}

theorem ids_fresh (source : Text) :
    (ofSource source).readAll.tokens.toList.map Token.id =
      List.range (ofSource source).readAll.nextId := by
  obtain ⟨fresh, hfresh, hids, hnext⟩ :=
    tokens_readMore (ofSource source).point.rest.length (ofSource source)
  have hzero : (ofSource source).nextId = 0 := rfl
  rw [readAll, hfresh, hnext, hzero, Nat.zero_add, List.range_eq_range']
  exact hids

theorem placement_of_le {t : Timeline} {slot : Nat} (h : t.markers.size ≤ slot) :
    t.placement slot = Timeline.unplaced := by
  rw [Timeline.placement, Timeline.placement?, Array.getElem?_eq_none h]
  rfl

def numberAt (s : TokenStream) (i : Nat) : TokenId := (s.tokens[i]?.map Token.id).getD s.nextId

theorem numberAt_some {i : Nat} {t : Token} (h : s.tokens[i]? = some t) : s.numberAt i = t.id := by
  rw [numberAt, h]
  rfl

theorem numberAt_none {i : Nat} (h : s.tokens[i]? = none) : s.numberAt i = s.nextId := by
  rw [numberAt, h]
  rfl

section

variable {fresh : TokenStream} {i : Nat} {t : Token}

theorem ShowsAll.sight_eq (hs : s.ShowsAll lines) (hfresh : fresh.ShowsAll lines)
    (hsource : s.source = fresh.source) (i : Nat) :
    s.tokens[i]?.map (s.timeline.sight lines) =
      fresh.tokens[i]?.map (fresh.timeline.sight lines) := by
  have hsights : s.tokens.toList.map (s.timeline.sight lines) =
      fresh.tokens.toList.map (fresh.timeline.sight lines) := by
    rw [hs.1.sights, hfresh.1.sights, hsource]
  have h := congrArg (fun l => l[i]?) hsights
  simpa only [List.getElem?_map, Array.getElem?_toList] using h

theorem id_of_range (hids : fresh.tokens.toList.map Token.id = List.range fresh.nextId)
    (ht : fresh.tokens[i]? = some t) : t.id = i := by
  have h := congrArg (fun l => l[i]?) hids
  simp only [List.getElem?_map, Array.getElem?_toList, ht, Option.map_some] at h
  obtain ⟨hlt, heq⟩ := List.getElem?_eq_some_iff.mp h.symm
  rw [List.getElem_range] at heq
  exact heq.symm

theorem size_of_range (hids : fresh.tokens.toList.map Token.id = List.range fresh.nextId) :
    fresh.tokens.size = fresh.nextId := by
  have h := congrArg List.length hids
  rwa [List.length_map, List.length_range, Array.length_toList] at h

theorem tokens_fresh (hs : s.ShowsAll lines) (hfresh : fresh.ShowsAll lines)
    (hsource : s.source = fresh.source)
    (hids : fresh.tokens.toList.map Token.id = List.range fresh.nextId) :
    s.tokens = renumber s.numberAt fresh.tokens := by
  refine Array.ext_getElem? fun i => ?_
  have hi := hs.sight_eq hfresh hsource i
  rw [show renumber _ fresh.tokens = fresh.tokens.map (renumber _) from rfl, Array.getElem?_map]
  cases hf : fresh.tokens[i]? with
  | none =>
    rw [hf] at hi
    exact Option.map_eq_none_iff.mp hi
  | some t =>
    rw [hf] at hi
    obtain ⟨u, hu, hsight⟩ := Option.map_eq_some_iff.mp hi
    have hkind : u.kind = t.kind := congrArg Prod.fst hsight
    have htext : u.text = t.text := congrArg (fun x => x.2.1) hsight
    have hnumber : s.numberAt t.id = u.id := by rw [id_of_range hids hf, numberAt_some hu]
    have hrenumber : renumber s.numberAt t = ⟨s.numberAt t.id, t.kind, t.text⟩ := rfl
    rw [hu, Option.map_some, hrenumber, hnumber, ← hkind, ← htext]

theorem placement_fresh (hs : s.ShowsAll lines) (hfresh : fresh.ShowsAll lines)
    (hsource : s.source = fresh.source)
    (hids : fresh.tokens.toList.map Token.id = List.range fresh.nextId) :
    Carries lines s.numberAt fresh.timeline s.timeline := by
  intro x
  have hx := hs.sight_eq hfresh hsource x
  cases hf : fresh.tokens[x]? with
  | none =>
    -- All pieces of a fresh stream belong to tokens, so this one has no coordinates.
    rw [hf] at hx
    have hle : fresh.nextId ≤ x := by
      rw [← size_of_range hids]
      exact Array.getElem?_eq_none_iff.mp hf
    rw [numberAt_none (Option.map_eq_none_iff.mp hx)]
    exact congrArg (Placement.seen lines)
      ((placement_of_le (Nat.le_refl _)).trans (placement_of_le hle).symm)
  | some t =>
    rw [hf] at hx
    obtain ⟨u, hu, hsight⟩ := Option.map_eq_some_iff.mp hx
    have hlive : (s.timeline.live? u.id).map (Placement.seen lines) =
        (fresh.timeline.live? t.id).map (Placement.seen lines) :=
      congrArg (fun x => x.2.2) hsight
    obtain ⟨p, hp⟩ := exists_live hfresh.1.sights t
      (Array.mem_toList_iff.mpr (Array.mem_of_getElem? hf))
    rw [hp, Option.map_some] at hlive
    obtain ⟨q, hq, hseen⟩ := Option.map_eq_some_iff.mp hlive
    rw [numberAt_some hu, Timeline.placement_of_live hq, ← id_of_range hids hf,
      Timeline.placement_of_live hp]
    exact hseen

theorem carries_fresh (hs : s.ShowsAll lines) (hfresh : fresh.ShowsAll lines)
    (hsource : s.source = fresh.source)
    (hids : fresh.tokens.toList.map Token.id = List.range fresh.nextId) :
    s.tokens = renumber s.numberAt fresh.tokens ∧
      Carries lines s.numberAt fresh.timeline s.timeline :=
  ⟨tokens_fresh hs hfresh hsource hids, placement_fresh hs hfresh hsource hids⟩

end

theorem HeldBack.exists_report {last : Token} (h : s.HeldBack last) :
    ∃ r ∈ (bareProgram s.tokens).2.reports.toList, r.code = .missingIdentifier ∧
      r.location s.timeline.resolve = .point 4 (s.location last).range.stop := by
  obtain ⟨i, htokens, hkind, htext, hspan⟩ := h.parts
  have hlast : last = ⟨last.id, .newline, ['\n']⟩ := by rw [← hkind, ← htext]
  have hrenumber : s.tokens = renumber (fun x => if x = 0 then i else last.id)
      #[⟨0, .letWord, ['l', 'e', 't']⟩, ⟨1, .newline, ['\n']⟩] := by
    refine Array.toList_inj.mp (htokens.trans ?_)
    rw [Renumber.toList_renumber]
    exact congrArg (fun t => [⟨i, .letWord, ['l', 'e', 't']⟩, t]) hlast
  have hfirst : (bareProgram
      #[⟨0, .letWord, ['l', 'e', 't']⟩, ⟨1, .newline, ['\n']⟩]).2.reports.toList.head? =
        some ⟨.missingIdentifier, [], some (.behind ⟨1, .newline, ['\n']⟩)⟩ := by
    decide +kernel
  obtain ⟨rest, hreports⟩ := List.head?_eq_some_iff.mp hfirst
  have hsame := congrArg Array.toList (bareProgram_renumber hrenumber).2
  rw [Renumber.toList_renumber, hreports, Renumber.renumber_cons] at hsame
  have hbehind : s.timeline.locationBehind last =
      .point (s.location last).span.stop (s.location last).range.stop := rfl
  rw [hspan, hlast] at hbehind
  refine ⟨_, hsame ▸ List.mem_cons_self, rfl, ?_⟩
  rw [hlast]
  exact hbehind

end TokenStream

end Reparse
