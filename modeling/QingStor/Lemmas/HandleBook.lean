import Mathlib.Data.Multiset.Count
import QingStor.Lib.History
import QingStor.HTTPFetcher

/-!
# The life of a handle

`HandleBook` is what the calls on easy handles are about: the handles the fetchers hold, the calls that were made, and the next
handle. A call is allowed on a handle that was created and not cleaned up before. For each thing that can happen to a book it is
said exactly when it leaves the book in order.
-/

namespace QingStor

/-- The handle a call needs to be alive. -/
def CurlCall.operand : CurlCall → Option CurlPtr
  | .easyInit _ | .multiAdd _ => none
  | .multiRemove p | .easyCleanup p | .easyPause p | .easyGetinfo p => some p

/-- A handle was created, and not cleaned up since. -/
def Alive (calls : List CurlCall) (h : Nat) : Prop := .easyInit h ∈ calls ∧ .easyCleanup (.easy h) ∉ calls

/-- After the calls before it, a call is on a handle that is alive. -/
def Allowed (before : List CurlCall) (c : CurlCall) : Prop := ∀ p ∈ c.operand, ∃ h, p = .easy h ∧ Alive before h

/-- The handles the fetchers hold, the calls that were made, and the number of the next handle. -/
structure HandleBook where
  holders : Multiset CurlPtr
  calls : List CurlCall
  fresh : Nat

namespace HandleBook

variable {b b' b'' : HandleBook} {c c' : Prop}

/-- What holds of every book: handles are numbered as they are created, no two fetchers hold the same, a handle that is held is
alive, and none is cleaned up twice. -/
structure Sound (b : HandleBook) : Prop where
  inits : ∀ h, .easyInit h ∈ b.calls ↔ h < b.fresh
  cleaned : ∀ h, .easyCleanup (.easy h) ∈ b.calls → h < b.fresh
  once : ∀ h, b.calls.count (.easyCleanup (.easy h)) ≤ 1
  alive : ∀ h, .easy h ∈ b.holders → Alive b.calls h
  one : ∀ h, b.holders.count (.easy h) ≤ 1

/-- All calls were allowed, and every handle that is alive is held. -/
structure InOrder (b : HandleBook) : Prop where
  used : Lib.Each Allowed b.calls
  kept : ∀ h, Alive b.calls h → .easy h ∈ b.holders

/-- What leads from `b` to `b'` keeps a book sound, and leaves it in order exactly if it was and `c` holds. -/
def Leads (b b' : HandleBook) (c : Prop) : Prop := b.Sound → b'.Sound ∧ (b'.InOrder ↔ b.InOrder ∧ c)

theorem Leads.refl (b : HandleBook) : b.Leads b True := by
  intro hs
  exact ⟨hs, (and_true _).symm ▸ Iff.rfl⟩

theorem Leads.trans (h : b.Leads b' c) (h' : b'.Leads b'' c') : b.Leads b'' (c ∧ c') := by
  intro hs
  obtain ⟨hs', hiff⟩ := h hs
  obtain ⟨hs'', hiff'⟩ := h' hs'
  exact ⟨hs'', by rw [hiff', hiff, and_assoc]⟩

theorem Leads.congr (h : b.Leads b' c) (hc : b.Sound → (c ↔ c')) : b.Leads b' c' := by
  intro hs
  obtain ⟨hs', hiff⟩ := h hs
  exact ⟨hs', by rw [hiff, hc hs]⟩

/-! ## Calls -/

/-- A call that neither creates nor cleans up a handle leaves the same ones alive. -/
theorem alive_append {calls : List CurlCall} {x : CurlCall} (hinit : ∀ h, x ≠ .easyInit h)
    (hclean : ∀ h, x ≠ .easyCleanup (.easy h)) (h : Nat) : Alive (calls ++ [x]) h ↔ Alive calls h := by
  unfold Alive
  rw [List.mem_append, List.mem_append, List.mem_singleton, List.mem_singleton]
  have h1 := hinit h
  have h2 := hclean h
  constructor
  · rintro ⟨hi, hc⟩
    exact ⟨hi.resolve_right (fun he => h1 he.symm), fun hm => hc (Or.inl hm)⟩
  · rintro ⟨hi, hc⟩
    exact ⟨Or.inl hi, fun hm => hm.elim hc (fun he => h2 he.symm)⟩

/-- A call that neither creates nor cleans up a handle. -/
theorem leads_call (b : HandleBook) {x : CurlCall} (hinit : ∀ h, x ≠ .easyInit h) (hclean : ∀ h, x ≠ .easyCleanup (.easy h)) :
    b.Leads { b with calls := b.calls ++ [x] } (Allowed b.calls x) := by
  intro hs
  have hmem : ∀ h, .easyInit h ∈ b.calls ++ [x] ↔ .easyInit h ∈ b.calls := by
    intro h
    rw [List.mem_append, List.mem_singleton]
    exact or_iff_left (fun he => hinit h he.symm)
  have hmem' : ∀ h, .easyCleanup (.easy h) ∈ b.calls ++ [x] ↔ .easyCleanup (.easy h) ∈ b.calls := by
    intro h
    rw [List.mem_append, List.mem_singleton]
    exact or_iff_left (fun he => hclean h he.symm)
  refine ⟨⟨?_, ?_, ?_, ?_, hs.one⟩, ?_⟩
  · intro h
    rw [hmem]
    exact hs.inits h
  · intro h
    rw [hmem']
    exact hs.cleaned h
  · intro h
    rw [List.count_append, List.count_singleton, if_neg (by simpa using (hclean h)), Nat.add_zero]
    exact hs.once h
  · intro h hh
    rw [alive_append hinit hclean]
    exact hs.alive h hh
  · constructor
    · intro h
      obtain ⟨hused, hx⟩ := Lib.each_concat.1 h.used
      exact ⟨⟨hused, fun k hk => h.kept k ((alive_append hinit hclean k).2 hk)⟩, hx⟩
    · rintro ⟨h, hx⟩
      exact ⟨Lib.each_concat.2 ⟨h.used, hx⟩, fun k hk => h.kept k ((alive_append hinit hclean k).1 hk)⟩

/-- A call on a handle that is held is allowed. -/
theorem Sound.allowed (hs : b.Sound) {h : Nat} (hh : .easy h ∈ b.holders) {x : CurlCall} (hx : x.operand = some (.easy h)) :
    Allowed b.calls x := by
  intro p hp
  rw [hx] at hp
  obtain rfl := Option.some.inj hp
  exact ⟨h, rfl, hs.alive h hh⟩

/-- A pause on what a fetcher holds is allowed when it holds a handle. -/
theorem leads_pause {p : CurlPtr} (hp : p ∈ b.holders) :
    b.Leads { b with calls := b.calls ++ [.easyPause p] } (∃ h, p = .easy h) := by
  refine (b.leads_call (x := .easyPause p) (fun h he => by cases he) (fun h he => by cases he)).congr (fun hs => ?_)
  constructor
  · intro hallowed
    obtain ⟨h, he, _⟩ := hallowed p rfl
    exact ⟨h, he⟩
  · rintro ⟨h, rfl⟩
    exact hs.allowed hp rfl

/-- ... and so are more of them. -/
theorem leads_pauses {p : CurlPtr} (hp : p ∈ b.holders) (k : Nat) :
    b.Leads { b with calls := b.calls ++ List.replicate k (.easyPause p) } (k ≠ 0 → ∃ h, p = .easy h) := by
  induction k generalizing b with
  | zero =>
    rw [List.replicate_zero, List.append_nil]
    exact (Leads.refl b).congr (fun _ => by simp)
  | succ k ih =>
    have hmore := (leads_pause hp).trans (ih (b := { b with calls := b.calls ++ [.easyPause p] }) hp)
    rw [List.replicate_succ, ← List.singleton_append, ← List.append_assoc]
    refine hmore.congr (fun _ => ?_)
    constructor
    · exact fun h _ => h.1
    · exact fun h => ⟨h (Nat.succ_ne_zero k), fun _ => h (Nat.succ_ne_zero k)⟩

/-! ## Handles come and go -/

/-- A handle that is held once is not held by the others. -/
theorem Sound.not_mem_rest (hs : b.Sound) {p : CurlPtr} {rest : Multiset CurlPtr} (hb : b.holders = p ::ₘ rest) {h : Nat}
    (hp : p = .easy h) : .easy h ∉ rest := by
  intro hmem
  have hone := hs.one h
  rw [hb, hp, Multiset.count_cons_self] at hone
  have hpos := Multiset.count_pos.2 hmem
  omega

/-- A new handle is held in place of `p`; what `p` was is given up. -/
theorem leads_init {p : CurlPtr} {rest : Multiset CurlPtr} (hb : b.holders = p ::ₘ rest) :
    b.Leads ⟨.easy b.fresh ::ₘ rest, b.calls ++ [.easyInit b.fresh], b.fresh + 1⟩ (∀ h, p ≠ .easy h) := by
  intro hs
  have hrest : ∀ x ∈ rest, x ∈ b.holders := fun x hx => by rw [hb]; exact Multiset.mem_cons_of_mem hx
  have hnew : ∀ h, .easyInit h ∈ b.calls ++ [.easyInit b.fresh] ↔ h < b.fresh + 1 := by
    intro h
    rw [List.mem_append, List.mem_singleton, hs.inits, CurlCall.easyInit.injEq]
    omega
  have hcleaned : ∀ h, CurlCall.easyCleanup (.easy h) ∈ b.calls ++ [.easyInit b.fresh] ↔ .easyCleanup (.easy h) ∈ b.calls := by
    intro h
    simp
  have halive : ∀ h, Alive (b.calls ++ [.easyInit b.fresh]) h ↔ Alive b.calls h ∨ h = b.fresh := by
    intro h
    unfold Alive
    rw [hnew, hcleaned, hs.inits]
    constructor
    · rintro ⟨hlt, hc⟩
      rcases Nat.lt_succ_iff_lt_or_eq.1 hlt with hlt | rfl
      · exact Or.inl ⟨hlt, hc⟩
      · exact Or.inr rfl
    · rintro (⟨hlt, hc⟩ | rfl)
      · exact ⟨Nat.lt_succ_of_lt hlt, hc⟩
      · exact ⟨Nat.lt_succ_self _, fun hc => Nat.lt_irrefl _ (hs.cleaned _ hc)⟩
  have hfresh : CurlPtr.easy b.fresh ∉ b.holders := by
    intro hmem
    exact Nat.lt_irrefl _ ((hs.inits _).1 (hs.alive _ hmem).1)
  refine ⟨⟨hnew, ?_, ?_, ?_, ?_⟩, ?_⟩
  · intro h hh
    exact Nat.lt_succ_of_lt (hs.cleaned h ((hcleaned h).1 hh))
  · intro h
    rw [List.count_append, List.count_singleton, if_neg (by simp), Nat.add_zero]
    exact hs.once h
  · intro h hh
    rw [halive]
    rcases Multiset.mem_cons.1 hh with he | hh
    · exact Or.inr (CurlPtr.easy.inj he)
    · exact Or.inl (hs.alive h (hrest _ hh))
  · intro h
    dsimp only
    by_cases he : h = b.fresh
    · rw [he, Multiset.count_cons_self, Multiset.count_eq_zero_of_notMem (fun hm => hfresh (hrest _ hm))]
    · have hone := hs.one h
      rw [hb, Multiset.count_cons] at hone
      rw [Multiset.count_cons_of_ne (fun hc => he (CurlPtr.easy.inj hc))]
      omega
  · constructor
    · intro h
      refine ⟨⟨(Lib.each_concat.1 h.used).1, ?_⟩, ?_⟩
      · intro k hk
        rw [hb]
        rcases Multiset.mem_cons.1 (h.kept k ((halive k).2 (Or.inl hk))) with he | hm
        · rw [CurlPtr.easy.inj he] at hk
          exact absurd ((hs.inits _).1 hk.1) (Nat.lt_irrefl _)
        · exact Multiset.mem_cons_of_mem hm
      · intro k hp
        have hk : Alive b.calls k := hs.alive k (by rw [hb, hp]; exact Multiset.mem_cons_self _ _)
        rcases Multiset.mem_cons.1 (h.kept k ((halive k).2 (Or.inl hk))) with he | hm
        · rw [CurlPtr.easy.inj he] at hk
          exact absurd ((hs.inits _).1 hk.1) (Nat.lt_irrefl _)
        · exact hs.not_mem_rest hb hp hm
    · rintro ⟨h, hp⟩
      refine ⟨Lib.each_concat.2 ⟨h.used, fun q hq => by cases hq⟩, fun k hk => ?_⟩
      rcases (halive k).1 hk with hk | rfl
      · have hm := h.kept k hk
        rw [hb] at hm
        rcases Multiset.mem_cons.1 hm with he | hm
        · exact absurd he.symm (hp k)
        · exact Multiset.mem_cons_of_mem hm
      · exact Multiset.mem_cons_self _ _

/-- A handle that is held is cleaned up and given up. -/
theorem leads_cleanup {e : Nat} {rest : Multiset CurlPtr} (hb : b.holders = .easy e ::ₘ rest) :
    b.Leads ⟨.null ::ₘ rest, b.calls ++ [.easyCleanup (.easy e)], b.fresh⟩ True := by
  intro hs
  have hheld : CurlPtr.easy e ∈ b.holders := by
    rw [hb]
    exact Multiset.mem_cons_self _ _
  have hmem : ∀ h, CurlPtr.easy h ∈ .null ::ₘ rest ↔ .easy h ∈ b.holders ∧ h ≠ e := by
    intro h
    have hnot := hs.not_mem_rest hb rfl
    rw [hb, Multiset.mem_cons, Multiset.mem_cons, CurlPtr.easy.injEq]
    constructor
    · rintro (he | hm)
      · cases he
      · exact ⟨Or.inr hm, fun he => hnot (he ▸ hm)⟩
    · rintro ⟨he | hm, hne⟩
      · exact absurd he hne
      · exact Or.inr hm
  have hcleaned : ∀ h, CurlCall.easyCleanup (.easy h) ∈ b.calls ++ [.easyCleanup (.easy e)] ↔
      .easyCleanup (.easy h) ∈ b.calls ∨ h = e := by
    intro h
    rw [List.mem_append, List.mem_singleton, CurlCall.easyCleanup.injEq, CurlPtr.easy.injEq]
  have halive : ∀ h, Alive (b.calls ++ [.easyCleanup (.easy e)]) h ↔ Alive b.calls h ∧ h ≠ e := by
    intro h
    unfold Alive
    rw [hcleaned, not_or, List.mem_append, List.mem_singleton, and_assoc]
    simp
  refine ⟨⟨?_, ?_, ?_, ?_, ?_⟩, ?_⟩
  · intro h
    rw [← hs.inits h]
    simp
  · intro h hh
    rcases (hcleaned h).1 hh with hh | rfl
    · exact hs.cleaned h hh
    · exact (hs.inits h).1 (hs.alive h hheld).1
  · intro h
    have hone := hs.once h
    rw [List.count_append, List.count_singleton]
    split
    · rename_i he
      have hzero : b.calls.count (.easyCleanup (.easy h)) = 0 := by
        rw [List.count_eq_zero]
        obtain rfl : e = h := by simpa using he
        exact (hs.alive e hheld).2
      omega
    · omega
  · intro h hh
    rw [halive]
    obtain ⟨hh, hne⟩ := (hmem h).1 hh
    exact ⟨hs.alive h hh, hne⟩
  · intro h
    have hone := hs.one h
    rw [hb, Multiset.count_cons] at hone
    rw [Multiset.count_cons_of_ne (fun he => by cases he)]
    omega
  · constructor
    · intro h
      refine ⟨⟨(Lib.each_concat.1 h.used).1, fun k hk => ?_⟩, trivial⟩
      by_cases he : k = e
      · rw [he]
        exact hheld
      · exact ((hmem k).1 (h.kept k ((halive k).2 ⟨hk, he⟩))).1
    · rintro ⟨h, -⟩
      refine ⟨Lib.each_concat.2 ⟨h.used, hs.allowed hheld rfl⟩, fun k hk => ?_⟩
      obtain ⟨hk, hne⟩ := (halive k).1 hk
      exact (hmem k).2 ⟨h.kept k hk, hne⟩

/-- Books with the same calls, of which one holds a pointer more that is no handle, are in order together. -/
theorem leads_holders {holders : Multiset CurlPtr} (h : ∀ k, holders.count (.easy k) = b.holders.count (.easy k)) :
    b.Leads { b with holders := holders } True := by
  intro hs
  have hmem : ∀ k, CurlPtr.easy k ∈ holders ↔ .easy k ∈ b.holders := by
    intro k
    rw [← Multiset.count_pos, ← Multiset.count_pos, h k]
  refine ⟨⟨hs.inits, hs.cleaned, hs.once, fun k hk => hs.alive k ((hmem k).1 hk), fun k => (h k).trans_le (hs.one k)⟩, ?_⟩
  constructor
  · intro ho
    exact ⟨⟨ho.used, fun k hk => (hmem k).1 (ho.kept k hk)⟩, trivial⟩
  · rintro ⟨ho, -⟩
    exact ⟨ho.used, fun k hk => (hmem k).2 (ho.kept k hk)⟩

/-- A fetcher comes without a handle. -/
theorem leads_join {p : CurlPtr} (hp : ∀ h, p ≠ .easy h) : b.Leads { b with holders := p ::ₘ b.holders } True :=
  leads_holders (fun k => Multiset.count_cons_of_ne (fun he => hp k he.symm) _)

/-- A fetcher leaves without a handle. -/
theorem leads_leave {p : CurlPtr} {rest : Multiset CurlPtr} (hb : b.holders = p ::ₘ rest) (hp : ∀ h, p ≠ .easy h) :
    b.Leads { b with holders := rest } True := by
  refine leads_holders (fun k => ?_)
  rw [hb, Multiset.count_cons_of_ne (fun he => hp k he.symm)]

end HandleBook

end QingStor
