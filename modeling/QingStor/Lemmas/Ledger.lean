import QingStor.Lemmas.Pipeline

/-!
# Where the bytes of a pipeline are

Every byte the write callbacks took was handed to the caller or is in the buffer of a fetcher that is not destroyed, and the
offset a fetcher resumes from counts exactly the bytes taken for it. `Change` says what one step may do to the fetchers, the
transfers and the record of pieces; the invariants follow from it.
-/

namespace QingStor

variable {β : Type*}

/-- `t'` is a later stage of the transfer `t`. -/
def Transfer.GoesOn (t t' : Transfer β) : Prop :=
  t'.easy = t.easy ∧ t'.userp = t.userp ∧ t'.status = t.status ∧ t'.rest <:+ t.rest

theorem Transfer.GoesOn.refl (t : Transfer β) : t.GoesOn t := ⟨rfl, rfl, rfl, List.suffix_refl _⟩

/-- The transfer stands at the beginning of a response that the outside may give at a start. -/
def Transfer.Begins (E : StartEnv β → Prop) (t : Transfer β) : Prop :=
  ∃ env range, E env ∧ t.status = (env.respond range).status ∧ t.rest = (env.respond range).body

/-- Each transfer of `m'` is a later stage of one of `m`. -/
def Multi.GoesOn (m m' : Multi β) : Prop :=
  m'.fresh = m.fresh ∧ ∀ t' ∈ m'.transfers, ∃ t ∈ m.transfers, Transfer.GoesOn t t'

namespace DownloadPipeline

variable {E : StartEnv β → Prop} {p p' : DownloadPipeline β} {r : Except Fault Unit}

/-- The bytes `read` returned that came from the fetcher at an address. -/
def handedOf (p : DownloadPipeline β) (u : Nat) : List β := (p.handed.filter (fun e => e.1 = u)).flatMap (·.2)

/-- The bytes the write callbacks took. -/
def takenBytes (p : DownloadPipeline β) : List β := p.mCurlMHandle.taken.flatMap (·.bytes)

/-- What is in order in every pipeline: addresses and handles are used once, buffers hold what their cursors say, a fetcher a
transfer can reach has its buffer, and the count of bytes done is that of the bytes handed out. -/
structure Tidy (p : DownloadPipeline β) : Prop where
  distinct : p.Distinct
  created : ∀ f ∈ p.fetchers, f.this < p.created
  userp : ∀ t ∈ p.mCurlMHandle.transfers, t.userp < p.created ∧ t.easy < p.mCurlMHandle.fresh
  handed : ∀ e ∈ p.handed, e.1 < p.created
  buffered : ∀ f ∈ p.fetchers, f.Buffered
  held : ∀ f ∈ p.fetchers, ∀ h, f.mCurl = .easy h → f.mReadBuff.isSome = true
  owned : ∀ f ∈ p.fetchers, ∀ t ∈ p.mCurlMHandle.transfers, t.userp = f.this → f.mReadBuff.isSome = true
  done : ∀ f ∈ p.fetchers, f.mBytesDone = (p.handedOf f.this).length

/-- What one step may do: it changes one fetcher, perhaps adding a piece to its buffer, or removes the front one, which is
empty, or changes none. -/
inductive Change (E : StartEnv β → Prop) (p p' : DownloadPipeline β) : Prop
  | fetcher (pre post : List (HTTPFetcher β)) (f g : HTTPFetcher β) :
      p.fetchers = pre ++ f :: post → p'.fetchers = pre ++ g :: post → g.this = f.this → g.Buffered →
      g.mBytesDone = f.mBytesDone → (f.mReadBuff.isSome = true → g.mReadBuff.isSome = true) →
      (∀ h, g.mCurl = .easy h → g.mReadBuff.isSome = true) → p.mCurlMHandle.fresh ≤ p'.mCurlMHandle.fresh →
      (∀ t' ∈ p'.mCurlMHandle.transfers, (∃ t ∈ p.mCurlMHandle.transfers, Transfer.GoesOn t t') ∨
        t'.easy < p'.mCurlMHandle.fresh ∧ t'.userp = f.this ∧ g.mReadBuff.isSome = true ∧ t'.Begins E) →
      (g.unread = f.unread ∧ p'.mCurlMHandle.taken = p.mCurlMHandle.taken ∨
        ∃ t ∈ p.mCurlMHandle.transfers, ∃ n, t.rest.take n ≠ [] ∧ g.unread = f.unread ++ t.rest.take n ∧
          p'.mCurlMHandle.taken = p.mCurlMHandle.taken ++ [⟨t.userp, t.status, t.rest.take n⟩]) →
      Change E p p'
  | front (f : HTTPFetcher β) :
      p.fetchers = f :: p'.fetchers → f.unread = [] → p.mCurlMHandle.GoesOn p'.mCurlMHandle →
      p'.mCurlMHandle.taken = p.mCurlMHandle.taken → Change E p p'
  | multi :
      p'.fetchers = p.fetchers → p.mCurlMHandle.GoesOn p'.mCurlMHandle →
      p'.mCurlMHandle.taken = p.mCurlMHandle.taken → Change E p p'

end DownloadPipeline

/-! ## Transfers -/

namespace Multi

variable {m : Multi β}

theorem GoesOn.refl (m : Multi β) : m.GoesOn m := ⟨rfl, fun t ht => ⟨t, ht, Transfer.GoesOn.refl t⟩⟩

/-- A change of one transfer keeps the handles. -/
theorem map_easy_update (m : Multi β) (h : Nat) {g : Transfer β → Transfer β} (hg : ∀ t, (g t).easy = t.easy) :
    (m.update h g).transfers.map (·.easy) = m.transfers.map (·.easy) := by
  unfold update
  rw [List.map_map]
  refine List.map_congr_left (fun t _ => ?_)
  rw [Function.comp_apply]
  split
  · exact hg t
  · rfl

/-- A change of one transfer that only moves it on. -/
theorem goesOn_update (m : Multi β) (h : Nat) {g : Transfer β → Transfer β} (hg : ∀ t : Transfer β, t.GoesOn (g t)) :
    m.GoesOn (m.update h g) := by
  refine ⟨rfl, fun t' ht' => ?_⟩
  obtain ⟨t, ht, rfl⟩ := List.mem_map.1 ht'
  refine ⟨t, ht, ?_⟩
  split
  · exact hg t
  · exact Transfer.GoesOn.refl t

theorem goesOn_of_subset {m' : Multi β} (hfresh : m'.fresh = m.fresh) (h : m'.transfers ⊆ m.transfers) : m.GoesOn m' :=
  ⟨hfresh, fun t ht => ⟨t, h ht, Transfer.GoesOn.refl t⟩⟩

theorem GoesOn.trans {m m' m'' : Multi β} (h : m.GoesOn m') (h' : m'.GoesOn m'') : m.GoesOn m'' := by
  refine ⟨h'.1.trans h.1, fun t'' ht'' => ?_⟩
  obtain ⟨t', ht', h1, h2, h3, h4⟩ := h'.2 t'' ht''
  obtain ⟨t, ht, g1, g2, g3, g4⟩ := h.2 t' ht'
  exact ⟨t, ht, h1.trans g1, h2.trans g2, h3.trans g3, h4.trans g4⟩

theorem mem_of_find? {e : Nat} {t : Transfer β} (h : m.find? e = some t) : t ∈ m.transfers ∧ t.easy = e := by
  unfold find? at h
  refine ⟨List.mem_of_find?_eq_some h, ?_⟩
  simpa using List.find?_some h

/-- Giving a handle up, with or without a multi handle, ends at most a transfer. -/
theorem cleanup_subset (f : HTTPFetcher β) (m : Multi β) :
    (f.cleanup m).2.transfers ⊆ m.transfers ∧ (f.cleanup m).2.fresh = m.fresh ∧ (f.cleanup m).2.taken = m.taken := by
  unfold HTTPFetcher.cleanup
  dsimp only
  split
  · exact ⟨List.Subset.refl _, rfl, rfl⟩
  · split
    · refine ⟨?_, rfl, rfl⟩
      unfold easyCleanup removeHandle
      dsimp only
      split
      · exact List.filter_subset_self _
      · exact List.Subset.refl _
    · exact ⟨List.Subset.refl _, rfl, rfl⟩

theorem goesOn_cleanup (f : HTTPFetcher β) (m : Multi β) : m.GoesOn (f.cleanup m).2 ∧ (f.cleanup m).2.taken = m.taken := by
  obtain ⟨hsub, hfresh, htaken⟩ := cleanup_subset f m
  exact ⟨goesOn_of_subset hfresh hsub, htaken⟩

/-- Taking a pause off ends none. -/
theorem goesOn_easyPause (m : Multi β) (curl : CurlPtr) :
    m.GoesOn (m.easyPause curl) ∧ (m.easyPause curl).taken = m.taken := by
  unfold easyPause
  cases curl with
  | easy h => exact ⟨goesOn_update _ h (fun t => ⟨rfl, rfl, rfl, List.suffix_refl _⟩), rfl⟩
  | null => exact ⟨GoesOn.refl _, rfl⟩
  | indeterminate => exact ⟨GoesOn.refl _, rfl⟩

end Multi

namespace DownloadPipeline

variable {E : StartEnv β → Prop} {p p' : DownloadPipeline β} {r : Except Fault Unit}

/-- A fetcher being started. -/
theorem change_of_start {f : HTTPFetcher β} {env : StartEnv β} {pre post : List (HTTPFetcher β)} (ht : p.Tidy) (hE : E env)
    (hf : p.fetchers = pre ++ f :: post) (hf' : p'.fetchers = pre ++ (f.start env p.mCurlMHandle).fetcher :: post)
    (hm : p'.mCurlMHandle = (f.start env p.mCurlMHandle).multi) : Change E p p' := by
  have hmem : f ∈ p.fetchers := by
    rw [hf]
    exact List.mem_append_right _ (List.mem_cons_self ..)
  obtain ⟨hb, hu⟩ := HTTPFetcher.primed_spec (ht.buffered f hmem) env
  have hsome : f.mReadBuff.isSome = true ∨ env.malloc = true → (f.primed env).mReadBuff.isSome = true :=
    HTTPFetcher.primed_isSome
  have hsame : (f.primed env).this = f.this ∧ (f.primed env).mBytesDone = f.mBytesDone ∧ (f.primed env).mCurl = f.mCurl := by
    obtain ⟨size, buff, h⟩ := f.primed_same env
    rw [h]
    exact ⟨rfl, rfl, rfl⟩
  obtain ⟨hthis, hdone, hcurl⟩ := hsame
  rcases f.start_cases env p.mCurlMHandle with ⟨e, he⟩ | ⟨hok, _, headers, lines, ⟨e, he⟩ | ⟨_, he⟩⟩
  · rw [he] at hf' hm
    refine .fetcher pre post f _ hf hf' hthis hb hdone (fun h => hsome (Or.inl h)) (fun h hh => ?_)
      (by rw [hm]) ?_ (Or.inl ⟨hu, by rw [hm]⟩)
    · rw [hcurl] at hh
      exact hsome (Or.inl (ht.held f hmem h hh))
    · rw [hm]
      exact fun t' ht' => Or.inl ⟨t', ht', Transfer.GoesOn.refl t'⟩
  · rw [he] at hf' hm
    refine .fetcher pre post f _ hf hf' hthis ⟨hb.cursors, hb.written⟩ hdone (fun h => hsome (Or.inl h))
      (fun _ _ => hsome hok) (by rw [hm]; exact Nat.le_succ _) ?_ (Or.inl ⟨hu, by rw [hm]; rfl⟩)
    rw [hm]
    intro t' ht'
    rcases List.mem_append.1 ht' with h | h
    · exact Or.inl ⟨t', h, Transfer.GoesOn.refl t'⟩
    · rw [List.mem_singleton] at h
      subst h
      exact Or.inr ⟨Nat.lt_succ_self _, rfl, hsome hok, env, none, hE, rfl, rfl⟩
  · rw [he] at hf' hm
    refine .fetcher pre post f _ hf hf' hthis ⟨hb.cursors, hb.written⟩ hdone (fun h => hsome (Or.inl h))
      (fun _ _ => hsome hok) (by rw [hm]; exact Nat.le_succ _) ?_ (Or.inl ⟨hu, by rw [hm]; rfl⟩)
    rw [hm]
    intro t' ht'
    obtain ⟨t, ht0, rfl⟩ := List.mem_map.1 ht'
    rcases List.mem_append.1 ht0 with h | h
    · left
      rw [if_neg (Nat.ne_of_lt (ht.userp t h).2)]
      exact ⟨t, h, Transfer.GoesOn.refl t⟩
    · rw [List.mem_singleton] at h
      subst h
      right
      rw [if_pos rfl]
      exact ⟨Nat.lt_succ_self _, rfl, hsome hok, env, f.range, hE, rfl, rfl⟩

/-- A fetcher an offer can go to has its buffer. -/
theorem Tidy.reached (ht : p.Tidy) {f : HTTPFetcher β} {e : Nat} (hf : f ∈ p.fetchers)
    (h : f.mCurl = .easy e ∨ ∃ t, p.mCurlMHandle.find? e = some t ∧ t.userp = f.this) : f.mReadBuff.isSome = true := by
  rcases h with h | ⟨t, hfind, hu⟩
  · exact ht.held f hf _ h
  · exact ht.owned f hf t (Multi.mem_of_find? hfind).1 hu

/-- What any step may do to a tidy pipeline. -/
theorem Step.change (h : Step E p r p') (ht : p.Tidy) : Change E p p' := by
  cases h with
  | @launch f pending env hp hE =>
    have hf : p.fetchers = p.mActiveFetchers ++ f :: pending := by
      rw [fetchers, hp]
    exact change_of_start ht hE hf (by simp [fetchers]) rfl
  | @restart f rest env ha _ hE =>
    have hf : p.fetchers = [] ++ f :: (rest ++ p.mPendingFetchers) := fetchers_split ha
    exact change_of_start ht hE hf (by simp [fetchers]) rfl
  | @offer pre post f e n ha hreach =>
    have hmem : f ∈ p.mActiveFetchers := by
      rw [ha]
      exact List.mem_append_right _ (List.mem_cons_self ..)
    have hsome := ht.reached (active_subset_fetchers hmem) hreach
    have hf : p.fetchers = pre ++ f :: (post ++ p.mPendingFetchers) := fetchers_split ha
    rcases HTTPFetcher.offer_cases (ht.buffered f (active_subset_fetchers hmem)) hsome p.mCurlMHandle e n with
      hsame | ⟨t, g, hfind, _, hre, hb, hs, hor⟩
    · rw [hsame]
      refine .multi ?_ (Multi.GoesOn.refl _) rfl
      rw [fetchers, fetchers, ha]
    · obtain ⟨_, _, _, _, hre⟩ := hre
      have hthis : g.this = f.this ∧ g.mBytesDone = f.mBytesDone := by
        rw [hre]
        exact ⟨rfl, rfl⟩
      rcases hor with ⟨hne, hu, heq⟩ | ⟨hu, heq⟩
      · rw [heq]
        have hgo : ∀ t : Transfer β, t.GoesOn { t with rest := t.rest.drop n } :=
          fun t => ⟨rfl, rfl, rfl, List.drop_suffix _ _⟩
        refine .fetcher pre (post ++ p.mPendingFetchers) f g hf (by simp [fetchers]) hthis.1 hb hthis.2 (fun _ => hs)
          (fun _ _ => hs) le_rfl (fun t' ht' => Or.inl ?_)
          (Or.inr ⟨t, (Multi.mem_of_find? hfind).1, n, hne, hu, rfl⟩)
        exact (Multi.goesOn_update p.mCurlMHandle e hgo).2 t' ht'
      · rw [heq]
        have hgo : ∀ t : Transfer β, t.GoesOn { t with paused := true } := fun t => ⟨rfl, rfl, rfl, List.suffix_refl _⟩
        refine .fetcher pre (post ++ p.mPendingFetchers) f g hf (by simp [fetchers]) hthis.1 hb hthis.2 (fun _ => hs)
          (fun _ _ => hs) le_rfl (fun t' ht' => Or.inl ?_) (Or.inl ⟨hu, rfl⟩)
        exact (Multi.goesOn_update p.mCurlMHandle e hgo).2 t' ht'
  | @resume f rest ha =>
    have hmem : f ∈ p.fetchers := active_subset_fetchers (by rw [ha]; exact List.mem_cons_self ..)
    have hb := ht.buffered f hmem
    obtain ⟨hgo, htaken⟩ := p.mCurlMHandle.goesOn_easyPause f.mCurl
    exact .fetcher [] (rest ++ p.mPendingFetchers) f { f with mPaused := false } (fetchers_front ha) rfl rfl
      ⟨hb.cursors, hb.written⟩ rfl id (fun h hh => ht.held f hmem h hh) hgo.1.ge
      (fun t' ht' => Or.inl (hgo.2 t' ht')) (Or.inl ⟨rfl, htaken⟩)
  | @idle f rest n ha hnil =>
    have hmem : f ∈ p.fetchers := active_subset_fetchers (by rw [ha]; exact List.mem_cons_self ..)
    obtain ⟨bs, heq, _⟩ := HTTPFetcher.handOut_spec (ht.buffered f hmem) n
    have hbs : bs = [] := by
      rw [heq] at hnil
      exact Got.bytes.inj hnil
    refine .multi ?_ (Multi.GoesOn.refl _) rfl
    rw [heq, hbs, fetchers, fetchers, ha]
    simp
  | @pop f rest ha hzero _ =>
    have hmem : f ∈ p.fetchers := active_subset_fetchers (by rw [ha]; exact List.mem_cons_self ..)
    obtain ⟨hgo, htaken⟩ := Multi.goesOn_cleanup f p.mCurlMHandle
    exact .front f (fetchers_front ha) ((HTTPFetcher.unread_eq_nil_iff (ht.buffered f hmem)).2 hzero) hgo htaken
  | @finish pre post f e res respcode _ ha hcurl =>
    have hmem : f ∈ p.fetchers := active_subset_fetchers (by rw [ha]; exact List.mem_append_right _ (List.mem_cons_self ..))
    have hb := ht.buffered f hmem
    have hf : p.fetchers = pre ++ f :: (post ++ p.mPendingFetchers) := fetchers_split ha
    have hend : p.mCurlMHandle.GoesOn (p.mCurlMHandle.update e.easy (fun t => { t with ended := true })) :=
      Multi.goesOn_update _ _ (fun t => ⟨rfl, rfl, rfl, List.suffix_refl _⟩)
    rcases HTTPFetcher.handleResult_cases hcurl res respcode
        (p.mCurlMHandle.update e.easy (fun t => { t with ended := true })) with
      ⟨err, calls, _, _, heq⟩ | ⟨state, failures, m', heq, _, hfresh, htaken, htr⟩
    · rw [heq]
      refine .multi ?_ hend rfl
      rw [fetchers, fetchers, ha]
    · rw [heq]
      have hgo : p.mCurlMHandle.GoesOn m' := by
        refine hend.trans (Multi.goesOn_of_subset hfresh ?_)
        rw [htr]
        split
        · exact List.filter_subset_self _
        · exact List.Subset.refl _
      have hnull : (f.closed state failures).mCurl = .null := rfl
      refine .fetcher pre (post ++ p.mPendingFetchers) f (f.closed state failures) hf (by simp [fetchers]) rfl
        ⟨hb.cursors, hb.written⟩ rfl id (fun h hh => ?_) hgo.1.ge (fun t' ht' => Or.inl (hgo.2 t' ht')) (Or.inl ⟨rfl, htaken⟩)
      rw [hnull] at hh
      cases hh
  | stray _ _ =>
    exact .multi rfl (Multi.goesOn_update _ _ (fun t => ⟨rfl, rfl, rfl, List.suffix_refl _⟩)) rfl
  | dangle _ _ => exact .multi rfl (Multi.GoesOn.refl _) rfl

/-! ## What every step keeps -/

/-- A fetcher of `p'` is one of `p`, or the one that was changed. -/
theorem mem_changed {pre post : List (HTTPFetcher β)} {f g k : HTTPFetcher β} (hf : p.fetchers = pre ++ f :: post)
    (hf' : p'.fetchers = pre ++ g :: post) (hk : k ∈ p'.fetchers) : k = g ∨ k ∈ p.fetchers := by
  rw [hf'] at hk
  rw [hf]
  rcases List.mem_append.1 hk with h | h
  · exact Or.inr (List.mem_append_left _ h)
  · rcases List.mem_cons.1 h with h | h
    · exact Or.inl h
    · exact Or.inr (List.mem_append_right _ (List.mem_cons_of_mem _ h))

/-- A pipeline stays tidy when fetchers leave it and transfers only go on. -/
theorem Tidy.fewer (ht : p.Tidy) (hd : p'.Distinct) (hh : p'.handed = p.handed) (hn : p'.created = p.created)
    (hsub : ∀ k ∈ p'.fetchers, k ∈ p.fetchers) (hgo : p.mCurlMHandle.GoesOn p'.mCurlMHandle) : p'.Tidy := by
  refine ⟨hd, ?_, ?_, ?_, ?_, ?_, ?_, ?_⟩
  · intro k hk
    rw [hn]
    exact ht.created k (hsub k hk)
  · intro t' ht'
    obtain ⟨t, hmt, heasy, huserp, _⟩ := hgo.2 t' ht'
    rw [hn, hgo.1, heasy, huserp]
    exact ht.userp t hmt
  · rw [hh, hn]
    exact ht.handed
  · exact fun k hk => ht.buffered k (hsub k hk)
  · exact fun k hk => ht.held k (hsub k hk)
  · intro k hk t' ht' hu
    obtain ⟨t, hmt, _, huserp, _⟩ := hgo.2 t' ht'
    exact ht.owned k (hsub k hk) t hmt (by rw [← huserp, hu])
  · intro k hk
    rw [handedOf, hh]
    exact ht.done k (hsub k hk)

/-- A change leaves a pipeline tidy. -/
theorem Change.tidy (hc : Change E p p') (hd : p'.Distinct) (hh : p'.handed = p.handed) (hn : p'.created = p.created)
    (ht : p.Tidy) : p'.Tidy := by
  cases hc with
  | fetcher pre post f g hf hf' hthis hb hdone hsome hheld hfresh htr _ =>
    have hmem : f ∈ p.fetchers := by
      rw [hf]
      exact List.mem_append_right _ (List.mem_cons_self ..)
    refine ⟨hd, ?_, ?_, ?_, ?_, ?_, ?_, ?_⟩
    · intro k hk
      rw [hn]
      rcases mem_changed hf hf' hk with rfl | hk
      · rw [hthis]
        exact ht.created f hmem
      · exact ht.created k hk
    · intro t' ht'
      rw [hn]
      rcases htr t' ht' with ⟨t, hmt, heasy, huserp, _⟩ | ⟨heasy, huserp, _⟩
      · have := ht.userp t hmt
        exact ⟨by omega, by omega⟩
      · rw [huserp]
        exact ⟨ht.created f hmem, heasy⟩
    · rw [hh, hn]
      exact ht.handed
    · intro k hk
      rcases mem_changed hf hf' hk with rfl | hk
      · exact hb
      · exact ht.buffered k hk
    · intro k hk
      rcases mem_changed hf hf' hk with rfl | hk
      · exact hheld
      · exact ht.held k hk
    · intro k hk t' ht' hu
      have hkey : k.this = f.this → k = g := by
        intro he
        rw [hf'] at hk
        have hd' := hd
        unfold Distinct at hd'
        rw [hf'] at hd'
        exact List.inj_on_of_nodup_map hd' hk (List.mem_append_right _ (List.mem_cons_self ..)) (he.trans hthis.symm)
      rcases htr t' ht' with ⟨t, hmt, _, huserp, _⟩ | ⟨_, huserp, hready, _⟩
      · rcases mem_changed hf hf' hk with rfl | hk'
        · exact hsome (ht.owned f hmem t hmt (by rw [← huserp, hu, hthis]))
        · exact ht.owned k hk' t hmt (by rw [← huserp, hu])
      · rw [hkey (by rw [← hu, huserp])]
        exact hready
    · intro k hk
      rw [handedOf, hh]
      rcases mem_changed hf hf' hk with rfl | hk
      · rw [hdone, hthis]
        exact ht.done f hmem
      · exact ht.done k hk
  | front f hf _ hgo _ =>
    refine ht.fewer hd hh hn (fun k hk => ?_) hgo
    rw [hf]
    exact List.mem_cons_of_mem _ hk
  | multi hf hgo _ =>
    refine ht.fewer hd hh hn (fun k hk => ?_) hgo
    rw [← hf]
    exact hk

theorem Step.tidy (h : Step E p r p') (ht : p.Tidy) : p'.Tidy :=
  (h.change ht).tidy (h.distinct ht.distinct) h.handed.1 h.handed.2.2 ht

/-- Handing out leaves a pipeline tidy: the count of the front fetcher grows with its bytes. -/
theorem HandsOut.tidy {n : Nat} {bs : List β} (h : p.HandsOut n bs p') (ht : p.Tidy) : p'.Tidy := by
  obtain ⟨f, rest, ha, _, hbs, rfl⟩ := h
  have hf : p.fetchers = f :: (rest ++ p.mPendingFetchers) := fetchers_front ha
  have hmem : f ∈ p.fetchers := by
    rw [hf]
    exact List.mem_cons_self ..
  obtain ⟨bs', heq, _, _, hb⟩ := HTTPFetcher.handOut_spec (ht.buffered f hmem) n
  obtain rfl : bs' = bs := by
    rw [heq] at hbs
    exact Got.bytes.inj hbs
  rw [heq] at hb ⊢
  have hmem' : ∀ k ∈ rest ++ p.mPendingFetchers, k ∈ p.fetchers := by
    intro k hk
    rw [hf]
    exact List.mem_cons_of_mem _ hk
  have hne : ∀ k ∈ rest ++ p.mPendingFetchers, k.this ≠ f.this := by
    intro k hk he
    have hd := ht.distinct
    unfold Distinct at hd
    rw [hf, List.map_cons, List.nodup_cons] at hd
    exact hd.1 (he ▸ List.mem_map_of_mem hk)
  refine ⟨?_, ?_, ht.userp, ?_, ?_, ?_, ?_, ?_⟩
  · have hd := ht.distinct
    unfold Distinct at hd ⊢
    rw [hf] at hd
    exact hd
  · intro k hk
    rcases List.mem_cons.1 hk with rfl | hk
    · exact ht.created f hmem
    · exact ht.created k (hmem' k hk)
  · intro e he
    rcases List.mem_append.1 he with he | he
    · exact ht.handed e he
    · rw [List.mem_singleton] at he
      subst he
      exact ht.created f hmem
  · intro k hk
    rcases List.mem_cons.1 hk with rfl | hk
    · exact hb
    · exact ht.buffered k (hmem' k hk)
  · intro k hk
    rcases List.mem_cons.1 hk with rfl | hk
    · exact ht.held f hmem
    · exact ht.held k (hmem' k hk)
  · intro k hk
    rcases List.mem_cons.1 hk with rfl | hk
    · exact ht.owned f hmem
    · exact ht.owned k (hmem' k hk)
  · intro k hk
    rcases List.mem_cons.1 hk with rfl | hk
    · have hdone := ht.done f hmem
      simp only [handedOf, List.filter_append, List.flatMap_append] at hdone ⊢
      simp [hdone]
    · have hdone := ht.done k (hmem' k hk)
      simp only [handedOf, List.filter_append, List.flatMap_append] at hdone ⊢
      simp [hdone, (hne k hk).symm]

/-- A new fetcher leaves a pipeline tidy. -/
theorem Tidy.add (ht : p.Tidy) (url host bucket : Str) (cred : QSCredential) (buffsize offset len : Int) :
    (p.add (.make p.created url host bucket cred buffsize offset len)).Tidy := by
  have hf : (p.add (.make p.created url host bucket cred buffsize offset len)).fetchers =
      p.fetchers ++ [.make p.created url host bucket cred buffsize offset len] := fetchers_add _ _
  have hnew : p.handedOf p.created = [] := by
    have hnone : p.handed.filter (fun e => e.1 = p.created) = [] := by
      rw [List.filter_eq_nil_iff]
      intro e he
      have := ht.handed e he
      simp only [decide_eq_true_eq]
      omega
    rw [handedOf, hnone, List.flatMap_nil]
  refine ⟨?_, ?_, ?_, ?_, ?_, ?_, ?_, ?_⟩
  · unfold Distinct
    rw [hf, List.map_append, List.nodup_append]
    refine ⟨ht.distinct, by simp, ?_⟩
    intro a ha b hb
    obtain ⟨k, hk, rfl⟩ := List.mem_map.1 ha
    rw [List.map_singleton, List.mem_singleton] at hb
    have := ht.created k hk
    rw [hb]
    exact Nat.ne_of_lt this
  · rw [hf]
    intro k hk
    rcases List.mem_append.1 hk with hk | hk
    · exact Nat.lt_succ_of_lt (ht.created k hk)
    · rw [List.mem_singleton] at hk
      subst hk
      exact Nat.lt_succ_self _
  · intro t htr
    have := ht.userp t htr
    exact ⟨Nat.lt_succ_of_lt this.1, this.2⟩
  · exact fun e he => Nat.lt_succ_of_lt (ht.handed e he)
  · rw [hf]
    intro k hk
    rcases List.mem_append.1 hk with hk | hk
    · exact ht.buffered k hk
    · rw [List.mem_singleton] at hk
      subst hk
      exact ⟨le_rfl, le_rfl⟩
  · rw [hf]
    intro k hk h hh
    rcases List.mem_append.1 hk with hk | hk
    · exact ht.held k hk h hh
    · rw [List.mem_singleton] at hk
      subst hk
      cases hh
  · rw [hf]
    intro k hk t htr hu
    rcases List.mem_append.1 hk with hk | hk
    · exact ht.owned k hk t htr hu
    · rw [List.mem_singleton] at hk
      subst hk
      have := (ht.userp t htr).1
      rw [hu] at this
      exact absurd this (lt_irrefl _)
  · rw [hf]
    intro k hk
    rcases List.mem_append.1 hk with hk | hk
    · exact ht.done k hk
    · rw [List.mem_singleton] at hk
      subst hk
      show (0 : Int) = (p.handedOf p.created).length
      rw [hnew]
      rfl

theorem tidy_make (nconnections : Int) : (make (β := β) nconnections).Tidy := by
  refine ⟨List.nodup_nil, ?_, ?_, ?_, ?_, ?_, ?_, ?_⟩ <;> exact fun _ h => by cases h

end DownloadPipeline

end QingStor
