import Reparse.Proofs.TokenStream.Tiling

/-!
# What the sink holds

The reporter of a stream hands faults on as they are found, unless it is muted. Reading the rest of
a source before an exchange is done without handing anything on, and the sink is emptied before the
new text is cut. So afterwards it holds what the inserted tokens brought, or nothing if the reporter
is muted. What is recorded, and what a stream comes to, hangs neither on the switch nor on the sink.
-/

namespace Reparse

namespace TokenStream

variable {s a b : TokenStream}

def heard (s : TokenStream) : Option (List Diagnostic) := s.reporter.sink.map Bag.toList

def faultDiagnostics (s : TokenStream) (ts : List Token) : List Diagnostic :=
  ts.filterMap fun t => t.fault?.map fun code =>
    .ofReport code (Lexeme.faultArgs code t.text) (s.location t)

theorem faultDiagnostics_append (s : TokenStream) (ts us : List Token) :
    s.faultDiagnostics (ts ++ us) = s.faultDiagnostics ts ++ s.faultDiagnostics us :=
  List.filterMap_append

theorem faultDiagnostics_congr {ts : List Token} (h : ∀ t ∈ ts, a.location t = b.location t) :
    a.faultDiagnostics ts = b.faultDiagnostics ts :=
  List.filterMap_congr fun t ht => by rw [h t ht]

/-- From one stream to the next some tokens were reported, and nothing else reached the sink. -/
structure Hands (s s' : TokenStream) (ts : List Token) : Prop where
  muted : s'.reporter.muted = s.reporter.muted
  heard : s'.heard = s.heard.map (· ++ if s.reporter.muted then [] else s'.faultDiagnostics ts)

theorem Hands.refl (s : TokenStream) : s.Hands s [] := by
  refine ⟨rfl, ?_⟩
  have hnone : (if s.reporter.muted then [] else s.faultDiagnostics []) = [] := ite_self _
  rw [hnone]
  cases s.heard with
  | none => rfl
  | some ds => exact congrArg some (List.append_nil ds).symm

theorem Hands.trans {s₁ s₂ s₃ : TokenStream} {ts us : List Token} (h : s₁.Hands s₂ ts)
    (h' : s₂.Hands s₃ us) (hplaces : ∀ t ∈ ts, s₂.location t = s₃.location t) :
    s₁.Hands s₃ (ts ++ us) := by
  refine ⟨h'.muted.trans h.muted, ?_⟩
  rw [h'.heard, h.heard, h.muted, faultDiagnostics_append, faultDiagnostics_congr hplaces,
    Option.map_map]
  congr 1
  funext ds
  cases s₁.reporter.muted with
  | true => exact List.append_nil _
  | false => exact List.append_assoc ..

theorem Hands.congr {s' r r' : TokenStream} {ts : List Token} (h : s.Hands s' ts)
    (hmuted : r.reporter.muted = s.reporter.muted) (hsink : r.reporter.sink = s.reporter.sink)
    (hmuted' : r'.reporter.muted = s'.reporter.muted)
    (hsink' : r'.reporter.sink = s'.reporter.sink) (htimeline : r'.timeline = s'.timeline) :
    r.Hands r' ts := by
  refine ⟨by rw [hmuted, hmuted', h.muted], ?_⟩
  have hplaces : r'.faultDiagnostics ts = s'.faultDiagnostics ts :=
    faultDiagnostics_congr fun t _ => by rw [location, htimeline, location]
  have hheard := h.heard
  rw [TokenStream.heard, TokenStream.heard] at hheard
  rw [TokenStream.heard, TokenStream.heard, hsink', hsink, hmuted, hplaces, hheard]

theorem hands_reportFault (s : TokenStream) (t : Token) :
    s.Hands (s.reportFault t t.fault?) [t] := by
  cases hfault : t.fault? with
  | none =>
    have hnone : s.faultDiagnostics [t] = s.faultDiagnostics [] := by
      simp only [faultDiagnostics, List.filterMap_cons, hfault, Option.map_none]
    have hrefl := Hands.refl s
    exact ⟨rfl, by rw [reportFault, hnone]; exact hrefl.heard⟩
  | some code =>
    refine ⟨rfl, ?_⟩
    have hone : (s.reportFault t (some code)).faultDiagnostics [t] =
        [.ofReport code (Lexeme.faultArgs code t.text) (s.location t)] := by
      simp only [faultDiagnostics, List.filterMap_cons, List.filterMap_nil, hfault, Option.map_some]
      rfl
    have hsink : (s.reportFault t (some code)).reporter.sink =
        if s.reporter.muted = true then s.reporter.sink
        else s.reporter.sink.map fun bag =>
          bag.emit (.ofReport code (Lexeme.faultArgs code t.text) (s.location t)) := rfl
    rw [hone, TokenStream.heard, TokenStream.heard, hsink, Option.map_map]
    by_cases hmuted : s.reporter.muted = true
    · rw [if_pos hmuted, if_pos hmuted]
      congr 1
      funext bag
      exact (List.append_nil _).symm
    · rw [if_neg hmuted, if_neg hmuted, Option.map_map]
      congr 1
      funext bag
      exact Array.toList_push ..

theorem hands_reportFaults (made : List (Token × Option Code))
    (hmade : ∀ x ∈ made, x.2 = x.1.fault?) (s : TokenStream) :
    s.Hands (made.foldl (fun r (t, fault) => r.reportFault t fault) s) (made.map Prod.fst) := by
  induction made generalizing s with
  | nil => exact .refl s
  | cons x made ih =>
    obtain ⟨t, fault⟩ := x
    obtain rfl : fault = t.fault? := hmade _ List.mem_cons_self
    have htail := ih (fun x hx => hmade x (List.mem_cons_of_mem _ hx)) (s.reportFault t t.fault?)
    refine (hands_reportFault s t).trans htail fun u _ => ?_
    have htimeline := congrArg TokenStream.timeline
      (reportFaults_frame made (s.reportFault t t.fault?))
    rw [location, location, List.foldl_cons, htimeline]

theorem location_register (t : Timeline) (p : Placement) {token : Token}
    (h : token.id < t.markers.size) : (t.register p).location token = t.location token := by
  have hget : (t.register p).markers[token.id]? = t.markers[token.id]? :=
    Array.getElem?_push_lt h |>.trans (Array.getElem?_eq_getElem h).symm
  rw [Timeline.location, Timeline.placement, Timeline.placement?, hget]
  rfl

theorem location_read {t : Token} (h : t.id < s.nextId) : s.read.2.location t = s.location t := by
  unfold read
  cases s.point.cut? with
  | none => rfl
  | some cut =>
    dsimp only
    rw [location, timeline_reportFault]
    exact location_register _ _ h

theorem nextId_read (s : TokenStream) : s.nextId ≤ s.read.2.nextId := by
  cases hcut : s.point.cut? with
  | none => simp only [read, hcut, Nat.le_refl]
  | some cut =>
    rw [(read_of_cut hcut).2]
    exact Nat.le_succ _

theorem location_readMore (n : Nat) {t : Token} (h : t.id < s.nextId) :
    (readMore n s).location t = s.location t := by
  induction n generalizing s with
  | zero => rfl
  | succ n ih =>
    have hread := location_read h
    rw [readMore_succ]
    split
    · rw [ih (Nat.lt_of_lt_of_le h (nextId_read s)), hread]
    · exact hread

theorem hands_read (s : TokenStream) : s.Hands s.read.2 s.read.1.toList := by
  unfold read
  cases hcut : s.point.cut? with
  | none => exact .refl s
  | some cut =>
    obtain ⟨l, next⟩ := cut
    have hfault : l.fault = (s.make s.point l).1.fault? := by
      unfold ReadPoint.cut? at hcut
      split at hcut
      · cases hcut
      · obtain ⟨rfl, -⟩ := Prod.mk.inj (Option.some.inj hcut)
        exact (Token.fault?_of_leading rfl).symm
    dsimp only
    rw [hfault]
    have hreport := hands_reportFault (s.make s.point l).2 (s.make s.point l).1
    exact hreport.congr rfl rfl rfl rfl rfl

theorem tokens_read (s : TokenStream) :
    s.read.2.tokens.toList = s.tokens.toList ++ s.read.1.toList := by
  unfold read
  cases s.point.cut? with
  | none => exact (List.append_nil _).symm
  | some cut => exact Array.toList_push ..

theorem id_read {t : Token} (h : s.read.1 = some t) : t.id < s.read.2.nextId := by
  cases hcut : s.point.cut? with
  | none =>
    simp only [read, hcut] at h
    cases h
  | some cut =>
    have hnext := (read_of_cut hcut).2
    simp only [read, hcut] at h
    obtain rfl := Option.some.inj h
    rw [hnext]
    exact Nat.lt_succ_self _

theorem hands_readMore (n : Nat) (s : TokenStream) :
    ∃ ts, (readMore n s).tokens.toList = s.tokens.toList ++ ts ∧ s.Hands (readMore n s) ts := by
  induction n generalizing s with
  | zero => exact ⟨[], (List.append_nil _).symm, .refl s⟩
  | succ n ih =>
    rw [readMore_succ]
    split
    next =>
      obtain ⟨ts, htokens, hhands⟩ := ih s.read.2
      refine ⟨s.read.1.toList ++ ts, ?_, ?_⟩
      · rw [htokens, tokens_read, List.append_assoc]
      · refine (hands_read s).trans hhands fun t ht => ?_
        exact (location_readMore n (id_read (Option.mem_toList.mp ht))).symm
    next => exact ⟨s.read.1.toList, tokens_read s, hands_read s⟩

theorem hands_readAllMuted (s : TokenStream) : s.Hands s.readAllMuted [] := by
  obtain ⟨ts, -, hhands⟩ := hands_readMore s.point.rest.length
    { s with reporter := s.reporter.mute true }
  refine ⟨rfl, ?_⟩
  have hheard := hhands.heard
  have hnone : (if s.reporter.muted then [] else s.readAllMuted.faultDiagnostics []) = [] :=
    ite_self _
  rw [hnone]
  exact hheard

theorem rescan_leading (fuel : Nat) (p : ReadPoint) (olds : List Survivor) :
    ∀ f ∈ (Survivor.rescan fuel p olds).1, ∃ c cs, f.lexeme = Lexeme.leading c cs := by
  induction fuel generalizing p olds with
  | zero => exact fun f hf => absurd hf List.not_mem_nil
  | succ fuel ih =>
    unfold Survivor.rescan ReadPoint.cut?
    cases p.rest with
    | nil => exact fun f hf => absurd hf List.not_mem_nil
    | cons c cs =>
      have hfound : ∀ olds' : List Survivor, ∀ next : ReadPoint, ∀ f ∈
          ⟨p, Lexeme.leading c cs⟩ :: (Survivor.rescan fuel next olds').1,
          ∃ c cs, f.lexeme = Lexeme.leading c cs := by
        intro olds' next f hf
        rcases List.mem_cons.mp hf with rfl | hf
        · exact ⟨c, cs, rfl⟩
        · exact ih next olds' f hf
      dsimp only
      split
      · exact hfound _ _
      · split
        · exact fun f hf => absurd hf List.not_mem_nil
        · exact hfound _ _

theorem fault_of_makeAll (found : List FoundLexeme) (s : TokenStream)
    (h : ∀ f ∈ found, ∃ c cs, f.lexeme = Lexeme.leading c cs) :
    ∀ x ∈ (makeAll found s).1, x.2 = x.1.fault? := by
  induction found generalizing s with
  | nil => exact fun x hx => absurd hx List.not_mem_nil
  | cons f found ih =>
    intro x hx
    rcases List.mem_cons.mp hx with rfl | hx
    · obtain ⟨c, cs, hf⟩ := h f List.mem_cons_self
      have htext : (s.make f.point f.lexeme).1.text = (Lexeme.leading c cs).text :=
        congrArg Lexeme.text hf
      have hfault := Token.fault?_of_leading htext
      rw [← hf] at hfault
      exact hfault.symm
    · exact ih (s.make f.point f.lexeme).2 (fun f hf => h f (List.mem_cons_of_mem _ hf)) x hx

theorem recordAll_eq (reports : Array (Report Anchor)) (r : Reporter Anchor) :
    reports.foldl Reporter.record r = { r with recorded := r.recorded ++ reports } := by
  rw [← Array.foldl_toList]
  obtain ⟨reports⟩ := reports
  induction reports generalizing r with
  | nil => exact congrArg (fun recorded => { r with recorded }) Array.append_empty.symm
  | cons report reports ih =>
    rw [List.foldl_cons, ih]
    simp [Reporter.record]

theorem hands_exchange (s : TokenStream) (first count : Nat) (text : Text) :
    s.Hands (s.exchange first count text).2 (s.exchange first count text).1.inserted := by
  have hmade : ∀ x ∈ (s.exchangeMade first count text).1, x.2 = x.1.fault? :=
    fault_of_makeAll _ _ (rescan_leading _ _ _)
  have hreported := hands_reportFaults (s.exchangeMade first count text).1 hmade
    { s.exchangeFilled first count text with point := (s.exchangeFilled first count text).endPoint }
  have hreporter : (s.exchangeMade first count text).2.reporter = s.reporter := by
    rw [exchangeMade, makeAll_frame]
  have hstream := s.exchange_stream first count text
  rw [recordAll_eq] at hstream
  rw [hstream]
  refine hreported.congr ?_ ?_ rfl rfl rfl
  · exact (congrArg Reporter.muted hreporter).symm
  · exact (congrArg Reporter.sink hreporter).symm

theorem hands_restart (htokens : s.tokens = #[]) (source : Text) :
    s.Hands (s.restart source).2 (s.restart source).1.inserted := by
  obtain ⟨ts, hread, hhands⟩ := hands_readMore source.length
    { s with source, point := .start source, reporter := s.reporter.clear }
  have hnone : s.tokens.toList = [] := congrArg Array.toList htokens
  have hinserted : (s.restart source).1.inserted = ts := by
    rw [hnone, List.nil_append] at hread
    exact hread
  rw [hinserted]
  exact hhands.congr rfl rfl rfl rfl rfl

/-- What an exchange does to the sink: it holds the faults of the inserted tokens at their places,
unless the reporter is muted. -/
structure Brings (s : TokenStream) (r : Mutation × TokenStream) : Prop where
  sink : r.2.heard = some
    (if s.reporter.muted then []
      else r.1.inserted.filterMap fun t => t.fault?.map fun code =>
        .ofReport code (Lexeme.faultArgs code t.text) (r.2.location t))
  muted : r.2.reporter.muted = s.reporter.muted

def emptied (s : TokenStream) : TokenStream :=
  { s.readAllMuted with reporter := s.readAllMuted.reporter.emptySink }

theorem mutate_eq (s : TokenStream) (first count : Nat) (text : Text) :
    s.mutate first count text =
      if s.emptied.tokens.isEmpty then s.emptied.restart text
      else s.emptied.exchange (min first s.emptied.tokens.size)
        (min count (s.emptied.tokens.size - min first s.emptied.tokens.size)) text := rfl

theorem heard_emptied (hsink : s.heard.isSome) : s.emptied.heard = some [] := by
  have hread := (hands_readAllMuted s).heard
  obtain ⟨ds, hds⟩ := Option.isSome_iff_exists.mp hsink
  rw [hds, Option.map_some] at hread
  obtain ⟨bag, hbag, -⟩ := Option.map_eq_some_iff.mp hread
  simp only [emptied, heard, Reporter.emptySink, hbag, Option.map_some]
  rfl

theorem brings_mutate (hsink : s.heard.isSome) (first count : Nat) (text : Text) :
    s.Brings (s.mutate first count text) := by
  have hmuted : s.emptied.reporter.muted = s.reporter.muted := (hands_readAllMuted s).muted
  have hhands : s.emptied.Hands (s.mutate first count text).2
      (s.mutate first count text).1.inserted := by
    rw [mutate_eq]
    split
    next hnone => exact hands_restart (Array.isEmpty_iff.mp hnone) text
    next => exact hands_exchange _ _ _ text
  have hheard := hhands.heard
  rw [heard_emptied hsink, Option.map_some, List.nil_append, hmuted] at hheard
  exact ⟨hheard, hhands.muted.trans hmuted⟩

theorem brings_edit (hsink : s.heard.isSome) {start count : Nat} {inserted : Text}
    {m : Mutation} {s' : TokenStream} (hedit : s.edit start count inserted = .ok m s') :
    s.Brings (m, s') := by
  obtain ⟨first, number, text, hmutate⟩ := exists_mutation_of_edit hedit
  have hread := hands_readAllMuted s
  have hsome : s.readAllMuted.heard.isSome := by
    rw [hread.heard, Option.isSome_map]
    exact hsink
  obtain ⟨hall, hmuted⟩ := brings_mutate hsome first number text
  rw [hread.muted, ← hmutate] at hall hmuted
  exact ⟨hall, hmuted⟩

/-- The stream but for the switch of its reporter and what was handed on. -/
def unheard (s : TokenStream) : TokenStream :=
  { s with reporter := { s.reporter with muted := false, sink := some {} } }

theorem eq_of_unheard (h : a.unheard = b.unheard) :
    ∃ muted sink, a = { b with reporter := { b.reporter with muted, sink } } := by
  obtain ⟨source, tokens, point, timeline, recorded, focus, muted, sink⟩ := a
  obtain ⟨_, _, _, _, _, _, muted', sink'⟩ := b
  cases h
  exact ⟨muted, sink, rfl⟩

theorem tokens_of_unheard (h : a.unheard = b.unheard) : a.tokens = b.tokens := by
  obtain ⟨muted, sink, rfl⟩ := eq_of_unheard h
  rfl

theorem unheard_reportFault (h : a.unheard = b.unheard) (t : Token) (fault : Option Code) :
    (a.reportFault t fault).unheard = (b.reportFault t fault).unheard := by
  obtain ⟨muted, sink, rfl⟩ := eq_of_unheard h
  cases fault <;> rfl

theorem unheard_reportFaults (made : List (Token × Option Code)) (h : a.unheard = b.unheard) :
    (made.foldl (fun r (t, fault) => r.reportFault t fault) a).unheard =
      (made.foldl (fun r (t, fault) => r.reportFault t fault) b).unheard := by
  induction made generalizing a b with
  | nil => exact h
  | cons x made ih => exact ih (unheard_reportFault h x.1 x.2)

theorem unheard_read (h : a.unheard = b.unheard) :
    a.read.1 = b.read.1 ∧ a.read.2.unheard = b.read.2.unheard := by
  obtain ⟨muted, sink, rfl⟩ := eq_of_unheard h
  unfold read
  cases b.point.cut? with
  | none => exact ⟨rfl, rfl⟩
  | some cut =>
    obtain ⟨l, next⟩ := cut
    refine ⟨rfl, ?_⟩
    dsimp only
    cases l.fault <;> rfl

theorem unheard_readMore (n : Nat) (h : a.unheard = b.unheard) :
    (readMore n a).unheard = (readMore n b).unheard := by
  induction n generalizing a b with
  | zero => exact h
  | succ n ih =>
    obtain ⟨hvalue, hread⟩ := unheard_read h
    rw [readMore_succ, readMore_succ, hvalue]
    split
    · exact ih hread
    · exact hread

theorem unheard_readAll (h : a.unheard = b.unheard) : a.readAll.unheard = b.readAll.unheard := by
  have hrest : a.point.rest.length = b.point.rest.length := by
    obtain ⟨muted, sink, rfl⟩ := eq_of_unheard h
    rfl
  rw [readAll, readAll, hrest]
  exact unheard_readMore _ h

theorem unheard_readAllMuted (h : a.unheard = b.unheard) :
    a.readAllMuted.unheard = b.readAllMuted.unheard := by
  have hmuted : ({ a with reporter := a.reporter.mute true } : TokenStream).unheard =
      ({ b with reporter := b.reporter.mute true } : TokenStream).unheard := h
  exact unheard_readAll hmuted

theorem unheard_makeAll (found : List FoundLexeme) (h : a.unheard = b.unheard) :
    (makeAll found a).1 = (makeAll found b).1 ∧
      (makeAll found a).2.unheard = (makeAll found b).2.unheard := by
  induction found generalizing a b with
  | nil => exact ⟨rfl, h⟩
  | cons f found ih =>
    obtain ⟨muted, sink, rfl⟩ := eq_of_unheard h
    have hmake : ((TokenStream.make { b with reporter := { b.reporter with muted, sink } } f.point
        f.lexeme).2).unheard = (b.make f.point f.lexeme).2.unheard := rfl
    obtain ⟨hmade, hrest⟩ := ih hmake
    exact ⟨congrArg (_ :: ·) hmade, hrest⟩

theorem unheard_exchangeMade (h : a.unheard = b.unheard) (first count : Nat) (text : Text) :
    (a.exchangeMade first count text).1 = (b.exchangeMade first count text).1 ∧
      (a.exchangeMade first count text).2.unheard = (b.exchangeMade first count text).2.unheard := by
  obtain ⟨muted, sink, rfl⟩ := eq_of_unheard h
  exact unheard_makeAll (b.rescanned first count text).1 rfl

theorem unheard_exchangeFilled (h : a.unheard = b.unheard) (first count : Nat) (text : Text) :
    (a.exchangeFilled first count text).unheard = (b.exchangeFilled first count text).unheard := by
  obtain ⟨hmade, hstream⟩ := unheard_exchangeMade h first count text
  obtain ⟨muted, sink, hsame⟩ := eq_of_unheard hstream
  obtain ⟨muted', sink', rfl⟩ := eq_of_unheard h
  rw [exchangeFilled, hmade, hsame]
  rfl

theorem unheard_exchangeReported (h : a.unheard = b.unheard) (first count : Nat) (text : Text) :
    (a.exchangeReported first count text).unheard =
      (b.exchangeReported first count text).unheard := by
  have hmade := (unheard_exchangeMade h first count text).1
  obtain ⟨muted, sink, hfilled⟩ := eq_of_unheard (unheard_exchangeFilled h first count text)
  rw [exchangeReported, exchangeReported, hmade]
  refine unheard_reportFaults _ ?_
  rw [hfilled]
  rfl

theorem unheard_exchange (h : a.unheard = b.unheard) (first count : Nat) (text : Text) :
    (a.exchange first count text).1 = (b.exchange first count text).1 ∧
      (a.exchange first count text).2.unheard = (b.exchange first count text).2.unheard := by
  have hmade := (unheard_exchangeMade h first count text).1
  obtain ⟨muted, sink, hreported⟩ := eq_of_unheard (unheard_exchangeReported h first count text)
  obtain ⟨muted', sink', rfl⟩ := eq_of_unheard h
  have hbehind : TokenStream.exchangeBehind
      { b with reporter := { b.reporter with muted := muted', sink := sink' } } first count text =
        b.exchangeBehind first count text := rfl
  have hmutation := congrArg (fun made : List (Token × Option Code) =>
    (⟨first, made.map Prod.fst, b.exchangeRemoved first count text⟩ : Mutation)) hmade
  refine ⟨hmutation, ?_⟩
  rw [exchange_stream, exchange_stream, recordAll_eq, recordAll_eq, hreported, hbehind]
  rfl

theorem unheard_restart (h : a.unheard = b.unheard) (source : Text) :
    (a.restart source).1 = (b.restart source).1 ∧
      (a.restart source).2.unheard = (b.restart source).2.unheard := by
  obtain ⟨muted, sink, rfl⟩ := eq_of_unheard h
  have hread := unheard_readAll
    (a := { b with source, point := .start source, reporter :=
      { b.reporter with muted, sink, recorded := #[], focus := none } })
    (b := { b with source, point := .start source, reporter := b.reporter.clear }) rfl
  have hmutation := congrArg (fun s : TokenStream => (⟨0, s.tokens.toList, []⟩ : Mutation)) hread
  exact ⟨hmutation, hread⟩

theorem unheard_mutate (h : a.unheard = b.unheard) (first count : Nat) (text : Text) :
    (a.mutate first count text).1 = (b.mutate first count text).1 ∧
      (a.mutate first count text).2.unheard = (b.mutate first count text).2.unheard := by
  have hemptied : a.emptied.unheard = b.emptied.unheard := unheard_readAllMuted h
  rw [mutate_eq, mutate_eq, tokens_of_unheard hemptied]
  split
  · exact unheard_restart hemptied text
  · exact unheard_exchange hemptied _ _ text

theorem layoutBefore_congr (h : a.tokens = b.tokens) (n : Nat) :
    a.layoutBefore n = b.layoutBefore n := by
  induction n with
  | zero => rfl
  | succ n ih => rw [layoutBefore, layoutBefore, h, ih]

theorem unheard_widenedMutation (h : a.unheard = b.unheard) (start stop : Nat) (inserted : Text) :
    (a.widenedMutation start stop inserted).1 = (b.widenedMutation start stop inserted).1 ∧
      (a.widenedMutation start stop inserted).2.unheard =
        (b.widenedMutation start stop inserted).2.unheard := by
  have htokens := tokens_of_unheard h
  have haffected : a.affected start stop = b.affected start stop := by
    have hlayout := layoutBefore_congr htokens
    obtain ⟨muted, sink, rfl⟩ := eq_of_unheard h
    rw [affected, affected, firstAffected, firstAffected, hlayout]
    rfl
  have htext : ∀ first number, a.widenedText start stop first number inserted =
      b.widenedText start stop first number inserted := by
    obtain ⟨muted, sink, rfl⟩ := eq_of_unheard h
    exact fun first number => rfl
  rw [widenedMutation, widenedMutation, htokens, haffected, htext]
  split
  · exact unheard_mutate h ..
  · exact unheard_mutate h ..

theorem unheard_edit (h : a.unheard = b.unheard) (start count : Nat) (inserted : Text) :
    match a.edit start count inserted, b.edit start count inserted with
    | .ok m s, .ok m' s' => m = m' ∧ s.unheard = s'.unheard
    | .error e s, .error e' s' => e = e' ∧ s.unheard = s'.unheard
    | _, _ => False := by
  have hcheck : a.checkEdit start count inserted = b.checkEdit start count inserted := by
    obtain ⟨muted, sink, rfl⟩ := eq_of_unheard h
    rfl
  obtain ⟨hmutation, hstream⟩ := unheard_widenedMutation (unheard_readAllMuted h) start
    (runEnd start count) inserted
  rw [edit_eq, edit_eq, hcheck]
  cases b.checkEdit start count inserted with
  | error e => exact ⟨rfl, h⟩
  | ok u => exact ⟨hmutation, hstream⟩

end TokenStream

inductive HostOp
  | session (op : SessionOp)
  | mute (muted : Bool)
  | takeSink
  deriving Repr

def HostOp.session? : HostOp → Option SessionOp
  | .session op => some op
  | _ => none

namespace Session

variable {s r : Session}

def host (s : Session) : HostOp → Session
  | .session op => s.apply op
  | .mute muted => { s with stream := { s.stream with reporter := s.stream.reporter.mute muted } }
  | .takeSink => { s with stream := { s.stream with reporter := s.stream.reporter.emptySink } }

def hostRun (s : Session) (ops : List HostOp) : Session := ops.foldl host s

theorem unheard_apply (h : s.stream.unheard = r.stream.unheard) (op : SessionOp) :
    (s.apply op).stream.unheard = (r.apply op).stream.unheard := by
  cases op with
  | readNext => exact (TokenStream.unheard_read h).2
  | readTo i =>
    simp only [Session.apply, TokenStream.readTo, TokenStream.tokens_of_unheard h]
    exact TokenStream.unheard_readMore _ h
  | readAll => exact TokenStream.unheard_readAll h
  | edit start count inserted =>
    have hedit := TokenStream.unheard_edit h start count inserted
    simp only [Session.apply]
    cases hs : s.stream.edit start count inserted with
    | error e s' =>
      cases hr : r.stream.edit start count inserted with
      | error e' r' =>
        rw [hs, hr] at hedit
        exact hedit.2
      | ok m' r' =>
        rw [hs, hr] at hedit
        exact hedit.elim
    | ok m s' =>
      cases hr : r.stream.edit start count inserted with
      | error e' r' =>
        rw [hs, hr] at hedit
        exact hedit.elim
      | ok m' r' =>
        rw [hs, hr] at hedit
        exact hedit.2
  | mutate first count text => exact (TokenStream.unheard_mutate h first count text).2
  | parse => exact TokenStream.unheard_readAll h
  | evict key => exact h
  | forget tokens => exact h
  | clear => exact h

theorem unheard_hostRun (h : s.stream.unheard = r.stream.unheard) (ops : List HostOp) :
    (s.hostRun ops).stream.unheard = (r.run (ops.filterMap HostOp.session?)).stream.unheard := by
  induction ops generalizing s r with
  | nil => exact h
  | cons op ops ih =>
    cases op with
    | session op => exact ih (unheard_apply h op)
    | mute muted => exact ih (s := s.host (.mute muted)) h
    | takeSink => exact ih (s := s.host .takeSink) h

theorem heard_apply (h : s.stream.heard.isSome) (op : SessionOp) :
    (s.apply op).stream.heard.isSome := by
  have hread : ∀ n, (TokenStream.readMore n s.stream).heard.isSome := by
    intro n
    obtain ⟨ts, -, hhands⟩ := TokenStream.hands_readMore n s.stream
    rw [hhands.heard, Option.isSome_map]
    exact h
  cases op with
  | readNext =>
    have hhands := TokenStream.hands_read s.stream
    simp only [Session.apply]
    rw [hhands.heard, Option.isSome_map]
    exact h
  | readTo i => exact hread _
  | readAll => exact hread _
  | edit start count inserted =>
    simp only [Session.apply]
    cases hedit : s.stream.edit start count inserted with
    | error e s' =>
      rw [(TokenStream.edit_refused hedit).2]
      exact h
    | ok m s' => exact Option.isSome_of_eq_some (TokenStream.brings_edit h hedit).sink
  | mutate first count text =>
    exact Option.isSome_of_eq_some (TokenStream.brings_mutate h first count text).sink
  | parse => exact hread _
  | evict key => exact h
  | forget tokens => exact h
  | clear => exact h

theorem heard_hostRun (h : s.stream.heard.isSome) (ops : List HostOp) :
    (s.hostRun ops).stream.heard.isSome := by
  induction ops generalizing s with
  | nil => exact h
  | cons op ops ih =>
    cases op with
    | session op => exact ih (heard_apply h op)
    | mute muted => exact ih (s := s.host (.mute muted)) h
    | takeSink =>
      refine ih (s := s.host .takeSink) ?_
      rw [TokenStream.heard, Option.isSome_map] at h ⊢
      rwa [host, Reporter.emptySink, Option.isSome_map]

/-- Whatever has been read, edited, parsed and switched off or on before, an exchange of tokens and
an accepted edit leave in the sink the faults of the tokens they inserted, or nothing if the reporter
is muted, and do not switch it. What is recorded, like all else about the stream, is what it would be
had nobody touched the switch or the sink. -/
theorem sink_hostRun (source : Text) (ops : List HostOp) :
    let s := (ofSource source).hostRun ops
    let untouched := (ofSource source).run (ops.filterMap HostOp.session?)
    (∀ first count text, s.stream.Brings (s.stream.mutate first count text)) ∧
      (∀ start count inserted m s', s.stream.edit start count inserted = .ok m s' →
        s.stream.Brings (m, s')) ∧
      s.stream.reporter.recorded = untouched.stream.reporter.recorded ∧
      s.stream.unheard = untouched.stream.unheard := by
  intro s untouched
  have hsome : s.stream.heard.isSome := heard_hostRun (s := ofSource source) rfl ops
  have hsame : s.stream.unheard = untouched.stream.unheard := unheard_hostRun rfl ops
  refine ⟨fun first count text => TokenStream.brings_mutate hsome first count text,
    fun start count inserted m s' => TokenStream.brings_edit hsome, ?_, hsame⟩
  obtain ⟨muted, sink, hstream⟩ := TokenStream.eq_of_unheard hsame
  rw [hstream]

theorem sink_hostRun_strange_character :
    let s := ((ofSource ['x', ' ', '#']).hostRun
      [.mute true, .session .readNext, .mute false]).stream
    ∃ m s', s.edit 0 1 ['@'] = .ok m s' ∧ s'.reporter.muted = false ∧
      s'.heard = some [.ofReport .strangeCharacter [['@']] ⟨⟨0, 1⟩, ⟨⟨1, 0⟩, ⟨1, 1⟩⟩⟩] := by
  intro s
  obtain ⟨-, hbrings, -⟩ := sink_hostRun ['x', ' ', '#'] [.mute true, .session .readNext, .mute false]
  let r := s.readAllMuted.widenedMutation 0 (runEnd 0 1) ['@']
  have hedit : s.edit 0 1 ['@'] = .ok r.1 r.2 := TokenStream.edit_of_ok (u := ()) rfl
  obtain ⟨hsink, hmuted⟩ := hbrings 0 1 ['@'] r.1 r.2 hedit
  dsimp only at hsink hmuted
  refine ⟨r.1, r.2, hedit, hmuted, hsink.trans ?_⟩
  decide

end Session

end Reparse
