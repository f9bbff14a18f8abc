import QingStor.Lemmas.Attempt

/-!
# The headers of an attempt

A fetcher keeps its headers when an attempt is over, and `start` adds to them. One set of headers is sent by the first attempt
that gets a handle, and by no later one.
-/

namespace QingStor

variable {β : Type*} {env : StartEnv β} {m : Multi β}

/-- One consistent set of headers for the request of one start: its host, its length, its range where it has one, its date and its
signature where it signs. -/
structure HTTPFetcher.OneSet (f : HTTPFetcher β) (S : Signer) (split : Str × Option Str) (lines : List Str) : Prop where
  host : (entriesOf .host lines).length = 1
  range : entriesOf .range lines = f.range.toList.map (fun r => headerLineOf .range r.text)
  contentLength : (entriesOf .contentLength lines).length = 1
  date : entriesOf .date lines = [headerLineOf .date S.timebuf]
  authorization : entriesOf .authorization lines =
    if f.mCred.keyid ≠ [] ∧ f.mCred.secret ≠ [] then [headerLineOf .authorization (f.authorization S split)] else []

/-! ## The headers of a run -/

/-- The headers of a fetcher have its host as soon as there are any, unless the host is empty. -/
def HTTPFetcher.Hosted (f : HTTPFetcher β) : Prop :=
  f.mHeaders.filter (fun p => p.1 = .host) = [] ↔ f.mHost = [] ∨ f.mHeaders = []

/-- Adding the headers of one request keeps it so. -/
theorem HTTPFetcher.Hosted.add {f : HTTPFetcher β} (h : f.Hosted) {own : HeaderContent}
    (hown : own.filter (fun p => p.1 = .host) = headerContentAdd [] .host f.mHost) :
    (f.mHeaders ++ own).filter (fun p => p.1 = .host) = [] ↔ f.mHost = [] ∨ f.mHeaders ++ own = [] := by
  rw [List.filter_append, hown, List.append_eq_nil_iff, List.append_eq_nil_iff]
  by_cases hhost : f.mHost = []
  · simp only [hhost, true_or, iff_true]
    exact ⟨h.2 (Or.inl hhost), rfl⟩
  · have hsome : headerContentAdd [] .host f.mHost = [(.host, f.mHost)] := by rw [headerContentAdd, if_neg hhost]; rfl
    have hne : own ≠ [] := by
      rintro rfl
      rw [hsome] at hown
      cases hown
    simp [hsome, hhost, hne]

/-- A start keeps it so. -/
theorem HTTPFetcher.Hosted.start {f : HTTPFetcher β} (h : f.Hosted) (hhost : (f.start env m).fetcher.mHost = f.mHost) :
    (f.start env m).fetcher.Hosted := by
  unfold Hosted
  rw [hhost]
  rcases (f.headed env m).grown with hsame | hown | ⟨split, hown⟩
  · rw [hsame]
    exact h
  · rw [hown]
    exact h.add (f.filter_ownHeader .host)
  · rw [hown]
    exact h.add (f.filter_ownHeaders env.signer split .host)

/-- A run keeps it so: only `start` touches the headers. -/
theorem FetcherRun.Sound.hosted_runs {s : FetcherRun β} (hs : s.Sound) (h : s.fetcher.Hosted) (ops : List (FetcherOp β)) :
    (ops.foldl FetcherOp.run s).fetcher.Hosted := by
  refine hs.runs_keep ?_ ?_ ?_ h ops
  · rintro f g ⟨_, _, _, _, _, rfl⟩ hf
    exact hf
  · intro f _ _ _ _ _ hf
    exact hf
  · intro f env m hroomy hf
    exact hf.start (hroomy.start env m).2.1.mHost

/-! ## The headers handed to curl -/

/-- The request of a start carries one set of headers exactly when the fetcher has no headers from before: when no start before it
got a handle. -/
theorem attempt_headers_iff (f : HTTPFetcher β) (hmade : f.Made) (ops : List (FetcherOp β)) (env : StartEnv β) (m : Multi β)
    (hdate : env.signer.timebuf ≠ []) (hok : ((f.after ops).fetcher.start env m).result = .ok ()) :
    (∃ split lines, qsParseUrl f.mUrl = .ok split ∧ ((f.after ops).fetcher.start env m).fetcher.mHttpHeaders = some lines ∧
        (f.after ops).fetcher.OneSet env.signer split lines) ↔
      f.mHost ≠ [] ∧ (f.after ops).fetcher.mHeaders = [] := by
  obtain ⟨this, url, host, bucket, cred, buffsize, offset, len, rfl⟩ := hmade
  have hsound := FetcherRun.sound_make (β := β) this url host bucket cred buffsize offset len
  have hhosted : (HTTPFetcher.make (β := β) this url host bucket cred buffsize offset len).Hosted :=
    ⟨fun _ => Or.inr rfl, fun _ => rfl⟩
  have hrun := hsound.hosted_runs hhosted ops
  have htask := (hsound.runs ops).2
  unfold HTTPFetcher.after at hok ⊢
  generalize (ops.foldl FetcherOp.run _ : FetcherRun β).fetcher = g at hok hrun htask ⊢
  dsimp only at htask
  rw [← htask.mUrl, ← htask.mHost]
  obtain ⟨split, hsplit, _, hlines⟩ := (g.headed env m).sent hok
  rw [hsplit, hlines]
  have hentries : ∀ field, entriesOf field (headerContentGetList (g.mHeaders ++ g.ownHeaders env.signer split)) =
      headerContentGetList (g.mHeaders.filter (fun p => p.1 = field)) ++
        headerContentGetList ((g.ownHeaders env.signer split).filter (fun p => p.1 = field)) := by
    intro field
    rw [entriesOf_getList, List.filter_append]
    exact List.map_append
  constructor
  · rintro ⟨_, _, ⟨⟩, ⟨⟩, hset⟩
    have hhost := hset.host
    rw [hentries, HTTPFetcher.filter_ownHeaders] at hhost
    unfold headerContentGetList at hhost
    rw [List.length_append, List.length_map, List.length_map] at hhost
    by_cases hempty : g.mHost = []
    · rw [hrun.2 (Or.inl hempty), hempty] at hhost
      cases hhost
    · have hone : (headerContentAdd [] .host g.mHost).length = 1 := by
        rw [headerContentAdd, if_neg hempty]
        rfl
      dsimp only at hhost
      have hzero := List.length_eq_zero_iff.1 (show (g.mHeaders.filter (fun p => p.1 = .host)).length = 0 by omega)
      exact ⟨hempty, (hrun.1 hzero).resolve_left hempty⟩
  · rintro ⟨hhost, hnone⟩
    refine ⟨split, _, rfl, rfl, ?_⟩
    rw [hnone] at hentries ⊢
    refine ⟨?_, ?_, ?_, ?_, ?_⟩
    · rw [hentries, HTTPFetcher.filter_ownHeaders]
      dsimp only
      rw [headerContentAdd, if_neg hhost]
      rfl
    · rw [hentries, HTTPFetcher.filter_ownHeaders]
      cases g.range <;> rfl
    · rw [hentries, HTTPFetcher.filter_ownHeaders]
      rfl
    · rw [hentries, HTTPFetcher.filter_ownHeaders]
      dsimp only
      rw [headerContentAdd, if_neg hdate]
      rfl
    · rw [hentries, HTTPFetcher.filter_ownHeaders]
      dsimp only
      split <;> rfl

theorem attempt_headers_iff_first :
    ∃ split lines, qsParseUrl (Sample.fetcher 0 4).mUrl = .ok split ∧
      (((Sample.fetcher 0 4).after []).fetcher.start Sample.willing .empty).fetcher.mHttpHeaders = some lines ∧
      ((Sample.fetcher 0 4).after []).fetcher.OneSet Sample.signer split lines :=
  (attempt_headers_iff (Sample.fetcher 0 4) (Sample.fetcher_made 0 4) [] Sample.willing .empty (by decide) (by decide +kernel)).2
    ⟨by decide, rfl⟩

/-- A restart does send the headers of the attempt before: after one failure there are two hosts. -/
theorem attempt_headers_false :
    ¬ ∀ (f : HTTPFetcher Byte), f.Made → ∀ (ops : List (FetcherOp Byte)) (env : StartEnv Byte) (m : Multi Byte),
      env.signer.timebuf ≠ [] → ((f.after ops).fetcher.start env m).result = .ok () →
      ∃ split lines, qsParseUrl f.mUrl = .ok split ∧ ((f.after ops).fetcher.start env m).fetcher.mHttpHeaders = some lines ∧
        (f.after ops).fetcher.OneSet env.signer split lines := by
  intro h
  obtain ⟨_, lines, _, hlines, hset⟩ := h (Sample.fetcher 0 4) (Sample.fetcher_made 0 4)
    [.start Sample.willing .empty, .handleResult (.failure .operationTimedout) 0 .empty] Sample.willing .empty (by decide)
    (by decide +kernel)
  have htwo : ((((Sample.fetcher 0 4).after
      [.start Sample.willing .empty, .handleResult (.failure .operationTimedout) 0 .empty]).fetcher.start Sample.willing .empty).fetcher.mHttpHeaders.map (fun lines => (entriesOf .host lines).length)) = some 2 := by
    decide +kernel
  rw [hlines, Option.map_some, hset.host] at htwo
  cases htwo

end QingStor
