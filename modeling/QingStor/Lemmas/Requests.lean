import QingStor.Common

/-!
# What a request comes to

The accumulator of a response holds the bytes delivered, and the read callback takes bytes off the front of the body. An
attempt of `DoGetJSON` returns when its exchange `Answers` the request; `doGetJSON` returns the first such answer among the
attempts it is allowed.
-/

namespace QingStor

/-! ## The accumulator of a response -/

/-- What the code reads of a sequence of deliveries: a null pointer without one, otherwise their bytes up to the first NUL. -/
def received (pieces : List Str) : Option Str := if pieces = [] then none else some (cString pieces.flatten)

namespace BufferAux

/-- The accumulator after deliveries whose bytes are `text`: they are in front, and there is room for the terminator. -/
structure Holds (b : BufferInfo) (text : List Byte) : Prop where
  position : b.position = text.length
  room : b.position < b.size
  data : ∃ d, b.data = some d ∧ d.length = b.size ∧ d.take b.position = text

/-- The growth loop keeps the bytes below the position, and ends with room for one byte more than needed. -/
theorem growBuffer_spec (fuel need : Nat) {data : List Byte} {size position : Nat} (h0 : 0 < size)
    (hl : data.length = size) (hp : position ≤ size) (hf : need < fuel + size) :
    (growBuffer fuel need data size position).1.length = (growBuffer fuel need data size position).2 ∧
      need < (growBuffer fuel need data size position).2 ∧
      (growBuffer fuel need data size position).1.take position = data.take position := by
  induction fuel generalizing data size with
  | zero => exact ⟨hl, by rw [growBuffer]; omega, rfl⟩
  | succ fuel ih =>
    unfold growBuffer
    by_cases hs : size ≤ need
    · rw [if_pos hs]
      have htake : (data.take position).length = position := by
        rw [List.length_take]
        omega
      have hblit : (Lib.blit (List.replicate (size * 2) (0 : Byte)) 0 (data.take position)).length = size * 2 := by
        rw [Lib.length_blit (by rw [htake, List.length_replicate]; omega), List.length_replicate]
      obtain ⟨h1, h2, h3⟩ := ih (by omega) hblit (by omega) (by omega)
      refine ⟨h1, h2, h3.trans ?_⟩
      have h : (Lib.blit (List.replicate (size * 2) (0 : Byte)) 0 (data.take position)).take (0 + (data.take position).length) =
          (List.replicate (size * 2) (0 : Byte)).take 0 ++ data.take position := Lib.take_blit (by omega)
      rwa [htake, Nat.zero_add] at h
    · rw [if_neg hs]
      exact ⟨hl, by omega, rfl⟩

/-- A delivery is stored after what the accumulator holds. -/
theorem holds_parserCallback {b : BufferInfo} {text : List Byte} (contents : List Byte) (h : Holds b text) :
    Holds (parserCallback b contents) (text ++ contents) := by
  obtain ⟨d, hd, hlen, htake⟩ := h.data
  have hroom := h.room
  have hpos := h.position
  obtain ⟨h1, h2, h3⟩ := growBuffer_spec (b.position + contents.length + 1) (b.position + contents.length) (by omega) hlen
    (Nat.le_of_lt hroom) (by omega)
  unfold parserCallback
  simp only [hd, Option.getD_some]
  refine ⟨?_, h2, _, rfl, ?_, ?_⟩
  · simp only [List.length_append, hpos]
  · rw [Lib.length_blit (by omega), h1]
  · dsimp only
    rw [Lib.take_blit (by omega), h3, htake]

/-- The first delivery allocates the accumulator. -/
theorem holds_first (contents : List Byte) : Holds (parserCallback .empty contents) contents := by
  have h : ∀ n, 0 < n → Holds ⟨some (List.replicate n 0), n, 0⟩ [] :=
    fun n hn => ⟨rfl, hn, _, rfl, List.length_replicate, List.take_zero⟩
  exact holds_parserCallback contents (h 1024 (Nat.zero_lt_succ _))

theorem holds_foldl {b : BufferInfo} {text : List Byte} (pieces : List Str) (h : Holds b text) :
    Holds (pieces.foldl parserCallback b) (text ++ pieces.flatten) := by
  induction pieces generalizing b text with
  | nil => simpa using h
  | cons p ps ih =>
    rw [List.foldl_cons, List.flatten_cons, ← List.append_assoc]
    exact ih (holds_parserCallback p h)

end BufferAux

/-- The accumulator gives the bytes delivered, whatever the sizes of the deliveries. -/
theorem accumulator_text (pieces : List Str) : (pieces.foldl parserCallback .empty).text = received pieces := by
  cases pieces with
  | nil => rfl
  | cons p ps =>
    obtain ⟨d, hd, _, htake⟩ := (BufferAux.holds_foldl ps (BufferAux.holds_first p)).data
    rw [List.foldl_cons, BufferInfo.text, hd, Option.map_some, htake, received, if_neg (List.cons_ne_nil p ps),
      List.flatten_cons]

/-! ## The body of an upload -/

/-- The number of bytes a call of the read callback asks for. -/
def askedFor (p : Nat × Nat) : Nat := p.1 * p.2 % 2 ^ 64

/-- The number of bytes some calls of the read callback ask for. -/
def askedAll (pulls : List (Nat × Nat)) : Nat := (pulls.map askedFor).sum

theorem askedAll_eq_zero {pulls : List (Nat × Nat)} : askedAll pulls = 0 ↔ ∀ p ∈ pulls, askedFor p = 0 := by
  unfold askedAll
  rw [List.sum_eq_zero_iff, List.forall_mem_map]

/-- A body `n` bytes further on. -/
def MemoryData.moved (md : MemoryData) (n : Nat) : MemoryData := ⟨md.advance.drop n, md.sizeleft - n⟩

@[simp] theorem MemoryData.moved_zero (md : MemoryData) : md.moved 0 = md := rfl

@[simp] theorem MemoryData.moved_sizeleft (md : MemoryData) (n : Nat) : (md.moved n).sizeleft = md.sizeleft - n := rfl

theorem MemoryData.moved_moved (md : MemoryData) (m n : Nat) : (md.moved m).moved n = md.moved (m + n) := by
  unfold MemoryData.moved
  rw [List.drop_drop, Nat.sub_sub]

/-- A body moved on has what is left of the bytes. -/
theorem MemoryData.moved_bytes (md : MemoryData) (n : Nat) : (md.moved n).bytes = md.bytes.drop n := by
  unfold MemoryData.moved MemoryData.bytes
  rw [List.drop_take]

/-- Memory for all of its bytes. -/
def MemoryData.Backed (md : MemoryData) : Prop := md.sizeleft ≤ md.advance.length

theorem MemoryData.Backed.moved {md : MemoryData} (h : md.Backed) (n : Nat) : (md.moved n).Backed := by
  have hlength : (md.moved n).advance.length = md.advance.length - n := List.length_drop
  unfold MemoryData.Backed at *
  rw [hlength, MemoryData.moved_sizeleft]
  omega

/-- The number of bytes a call of the read callback takes. -/
theorem memReadCallback_count (md : MemoryData) (size nmemb : Nat) :
    (if askedFor (size, nmemb) < md.sizeleft then askedFor (size, nmemb) else md.sizeleft) =
      min (askedFor (size, nmemb)) md.sizeleft := by
  split <;> omega

/-- A call of the read callback moves the body on by what it asks for, as far as there is any. -/
theorem memReadCallback_left (md : MemoryData) (size nmemb : Nat) :
    (memReadCallback md size nmemb).2 = md.moved (min (askedFor (size, nmemb)) md.sizeleft) := by
  unfold memReadCallback
  dsimp only
  rw [show size * nmemb % 2 ^ 64 = askedFor (size, nmemb) from rfl, memReadCallback_count]
  split
  · rename_i hnone
    rw [hnone]
    rfl
  · rfl

/-- Calls that follow on others. -/
theorem foldl_memReadNext (s : Option (List Byte) × MemoryData) (ps : List (Nat × Nat)) :
    ps.foldl memReadNext s = (s.1.bind (fun sent => (memReadAll s.2 ps).1.map (sent ++ ·)), (memReadAll s.2 ps).2) := by
  induction ps generalizing s with
  | nil =>
    obtain ⟨sent, md⟩ := s
    cases sent <;> simp [memReadAll]
  | cons p ps ih =>
    unfold memReadAll
    rw [List.foldl_cons, List.foldl_cons, ih, ih (memReadNext _ p)]
    obtain ⟨sent, md⟩ := s
    unfold memReadNext
    dsimp only
    cases sent with
    | none => rfl
    | some sent =>
      cases (memReadCallback md p.1 p.2).1 with
      | none => rfl
      | some more => cases (memReadAll (memReadCallback md p.1 p.2).2 ps).1 <;> simp

/-- The first call, and the others. -/
theorem memReadAll_cons (md : MemoryData) (p : Nat × Nat) (ps : List (Nat × Nat)) :
    memReadAll md (p :: ps) =
      ((memReadCallback md p.1 p.2).1.bind (fun sent => (memReadAll (memReadCallback md p.1 p.2).2 ps).1.map (sent ++ ·)),
        (memReadAll (memReadCallback md p.1 p.2).2 ps).2) := by
  have hfirst : memReadNext (some [], md) p = memReadCallback md p.1 p.2 := by
    unfold memReadNext
    cases (memReadCallback md p.1 p.2).1 <;> simp
  have hall : memReadAll md (p :: ps) = ps.foldl memReadNext (memReadNext (some [], md) p) := rfl
  rw [hall, foldl_memReadNext, hfirst]

/-- Calls of the read callback move the body on by what they ask for, as far as there is any. -/
theorem memReadAll_left (md : MemoryData) (pulls : List (Nat × Nat)) :
    (memReadAll md pulls).2 = md.moved (min (askedAll pulls) md.sizeleft) := by
  induction pulls generalizing md with
  | nil =>
    rw [askedAll, List.map_nil, List.sum_nil, Nat.zero_min]
    rfl
  | cons p ps ih =>
    rw [memReadAll_cons]
    dsimp only
    rw [ih, memReadCallback_left, MemoryData.moved_moved, MemoryData.moved_sizeleft]
    congr 1
    simp only [askedAll, List.map_cons, List.sum_cons, Prod.mk.eta]
    omega

/-- The answer an exchange gives to a request of a type: the transfer ended well; a type whose answer is JSON got a body that
parses; the others got no body, and a `HEAD` request got a header that parses. -/
def Exchange.Answers (J : JsonC) (qsrt : QSRequestType) (x : Exchange) (j : Json) : Prop :=
  x.easyInit = true ∧ x.res = .ok ∧
    if qsrt.answersJson then ∃ text, received x.body = some text ∧ J.tokenerParse text = j ∧ j.isNull = false
    else x.body = [] ∧
      if qsrt = .headObject then ∃ text, received x.header = some text ∧ parseHttpHeader J text = j ∧ j.isNull = false
      else j = .null

/-- A request that reaches the network: its URL can be split for signing, and its type is one that is signed. -/
def RequestArgs.Sendable (a : RequestArgs) : Prop := a.qsrt ≠ .none ∧ (qsParseUrl a.url).isOk = true

instance (a : RequestArgs) : Decidable a.Sendable := inferInstanceAs (Decidable (_ ∧ _))

theorem isOk_iff {α : Type*} {r : Except Fault α} : r.isOk = true ↔ ∃ x, r = .ok x := by
  cases r <;> simp [Except.isOk, Except.toBool]

/-- `DoGetJSON_Internal` reads an answer exactly when the exchange gives one. -/
theorem readAnswer_ok_iff {J : JsonC} {qsrt : QSRequestType} {x : Exchange} (hinit : x.easyInit = true) (j : Json) :
    readAnswer J qsrt x = .ok j ↔ x.Answers J qsrt j := by
  unfold readAnswer Exchange.Answers
  rw [accumulator_text, accumulator_text]
  by_cases hres : x.res = .ok
  · simp only [hres, ne_eq, not_true_eq_false, if_false, hinit, true_and]
    by_cases hjson : qsrt.answersJson = true
    · simp only [hjson, if_true]
      cases hr : received x.body with
      | none => simp
      | some text =>
        cases hnull : (J.tokenerParse text).isNull with
        | true =>
          simp only [hnull, if_true, reduceCtorEq, Option.some.injEq, false_iff, not_exists, not_and]
          intro text' ht hj hn
          rw [← hj, ← ht, hnull] at hn
          cases hn
        | false =>
          simp only [hnull, Bool.false_eq_true, if_false, Except.ok.injEq, Option.some.injEq]
          constructor
          · intro h
            exact ⟨text, rfl, h, h ▸ hnull⟩
          · rintro ⟨text', rfl, h, _⟩
            exact h
    · simp only [hjson, Bool.false_eq_true, if_false]
      by_cases hb : x.body = []
      · simp only [hb, received, if_true, Option.isSome_none, Bool.false_eq_true, if_false, true_and]
        by_cases hq : qsrt = .headObject
        · simp only [hq, if_true]
          by_cases hh : x.header = []
          · simp [hh]
          · simp only [hh, if_false, Option.some.injEq]
            cases hnull : (parseHttpHeader J (cString x.header.flatten)).isNull with
            | true =>
              simp only [if_true, reduceCtorEq, false_iff, not_exists, not_and]
              intro text' ht hj hn
              rw [← hj, ← ht, hnull] at hn
              cases hn
            | false =>
              simp only [Bool.false_eq_true, if_false, Except.ok.injEq]
              constructor
              · intro h
                exact ⟨_, rfl, h, h ▸ hnull⟩
              · rintro ⟨text', rfl, h, _⟩
                exact h
        · simp only [hq, if_false, Except.ok.injEq]
          exact eq_comm
      · simp [hb, received]
  · simp [hres]

/-- What goes wrong with an answer is an exception of the SDK. -/
theorem readAnswer_error {J : JsonC} {qsrt : QSRequestType} {x : Exchange} {f : Fault} (h : readAnswer J qsrt x = .error f) :
    f.isThrown = true := by
  unfold readAnswer at h
  dsimp only at h
  split at h
  · cases h
    rfl
  · split at h
    · split at h
      · cases h
        rfl
      · split at h <;> cases h
        rfl
    · split at h
      · cases h
        rfl
      · split at h
        · split at h
          · cases h
            rfl
          · split at h <;> cases h
            rfl
        · cases h

/-- Signing fails for no type but the one that has no name. -/
theorem signature_ok (S : Signer) (h : HeaderContent) (resource : Str) (cred : QSCredential) {qsrt : QSRequestType}
    {md : Option MemoryData} (hq : qsrt ≠ .none) (hmd : qsrt.uploads = true → md.isSome = true) :
    ∃ h', signature S h resource cred qsrt md = .ok h' := by
  unfold signature
  cases qsrt with
  | none => exact absurd rfl hq
  | uploadMp =>
    obtain ⟨m, rfl⟩ := Option.isSome_iff_exists.1 (hmd rfl)
    dsimp only [QSRequestType.signedHead]
    split <;> exact ⟨_, rfl⟩
  | compMpUpload =>
    obtain ⟨m, rfl⟩ := Option.isSome_iff_exists.1 (hmd rfl)
    dsimp only [QSRequestType.signedHead]
    split <;> exact ⟨_, rfl⟩
  | _ =>
    dsimp only [QSRequestType.signedHead]
    split <;> exact ⟨_, rfl⟩

theorem signature_none (S : Signer) (h : HeaderContent) (resource : Str) (cred : QSCredential) (md : Option MemoryData) :
    ∃ f, signature S h resource cred .none md = .error f := ⟨_, rfl⟩

/-- The lengths a header content declares. -/
def contentLengths (h : HeaderContent) : List Str := (h.filter (fun p => p.1 = .contentLength)).map (·.2)

theorem contentLengths_add_other (h : HeaderContent) {f : HeaderField} (v : Str) (hf : f ≠ .contentLength) :
    contentLengths (headerContentAdd h f v) = contentLengths h := by
  unfold headerContentAdd
  split
  · rfl
  · simp [contentLengths, hf]

theorem decimal_ne_nil (n : Nat) : decimal n ≠ [] := by
  have h : (Int.repr (n : Int)).toList ≠ [] := by
    intro h
    exact Nat.repr_ne_empty (String.toList_eq_nil_iff.1 h)
  intro hd
  exact h (List.map_eq_nil_iff.1 hd)

/-- A signed upload declares the length that is left of its body, once. -/
theorem signature_contentLengths {S : Signer} {h h' : HeaderContent} {resource : Str} {cred : QSCredential}
    {qsrt : QSRequestType} {m : MemoryData} (hq : qsrt.uploads = true)
    (hs : signature S h resource cred qsrt (some m) = .ok h') :
    contentLengths h' = contentLengths h ++ [decimal m.sizeleft] := by
  have hadd : contentLengths (headerContentAdd h .contentLength (decimal m.sizeleft)) =
      contentLengths h ++ [decimal m.sizeleft] := by
    rw [headerContentAdd, if_neg (decimal_ne_nil _)]
    simp [contentLengths]
  cases qsrt with
  | uploadMp | compMpUpload =>
    unfold signature at hs
    dsimp only [QSRequestType.signedHead] at hs
    split at hs <;> cases hs
    · rw [contentLengths_add_other _ _ (by decide), contentLengths_add_other _ _ (by decide),
        contentLengths_add_other _ _ (by decide), hadd]
    · rw [contentLengths_add_other _ _ (by decide), contentLengths_add_other _ _ (by decide), hadd]
  | _ => cases hq

/-- The headers before signing declare no length. -/
theorem contentLengths_header (a : RequestArgs) : contentLengths a.header = [] := by
  unfold RequestArgs.header
  split
  · rw [contentLengths_add_other _ _ (by decide), contentLengths_add_other _ _ (by decide)]
    rfl
  · rw [contentLengths_add_other _ _ (by decide)]
    rfl

/-- What an attempt that reaches the network leaves of the body. -/
def RequestArgs.left (a : RequestArgs) (md : Option MemoryData) (x : Exchange) : Option MemoryData :=
  if a.qsrt.uploads then md.map (fun md => (memReadAll md x.pulls).2) else md

/-- An attempt that reaches the network: its request is sent with the body it was given. -/
theorem doGetJSONInternal_sent (J : JsonC) {a : RequestArgs} (md : Option MemoryData) {x : Exchange} (hs : a.Sendable)
    (hmd : a.qsrt.uploads = true → md.isSome = true) (hinit : x.easyInit = true) :
    ∃ headers, doGetJSONInternal J a md x = ⟨rethrowing (readAnswer J a.qsrt x), a.left md x,
        some ⟨a.qsrt, a.url, headers, if a.qsrt.uploads then md else none⟩⟩ ∧
      ∀ m, a.qsrt.uploads = true → md = some m → contentLengths headers = [decimal m.sizeleft] := by
  obtain ⟨hq, hurl⟩ := hs
  obtain ⟨⟨path, query⟩, hsplit⟩ := isOk_iff.1 hurl
  unfold doGetJSONInternal doGetJSONTry
  have hbody : ¬ (a.qsrt.uploads = true ∧ md.isNone = true) := by
    rintro ⟨h1, h2⟩
    have := hmd h1
    cases md <;> simp_all
  simp only [hinit, not_true_eq_false, if_false, if_neg hbody, hsplit]
  obtain ⟨headers, hsig⟩ := signature_ok x.signer a.header (a.resource path query) a.cred hq hmd
  simp only [hsig]
  refine ⟨headers, rfl, fun m hu hm => ?_⟩
  subst hm
  rw [signature_contentLengths hu hsig, contentLengths_header]
  rfl

/-- An attempt that does not reach the network leaves the body alone. -/
theorem doGetJSONInternal_unsent (J : JsonC) {a : RequestArgs} (md : Option MemoryData) {x : Exchange}
    (h : ¬ (a.Sendable ∧ x.easyInit = true)) :
    (doGetJSONInternal J a md x).md = md ∧ ∀ j, (doGetJSONInternal J a md x).result ≠ .ok j := by
  unfold doGetJSONInternal doGetJSONTry
  simp only [ne_eq, rethrowing_ok_iff]
  by_cases hinit : x.easyInit = true
  · simp only [hinit, not_true_eq_false, if_false]
    split
    · simp
    · cases hsplit : qsParseUrl a.url with
      | error f => simp
      | ok split =>
        have hq : a.qsrt = .none := by
          by_contra hq
          exact h ⟨⟨hq, isOk_iff.2 ⟨split, hsplit⟩⟩, hinit⟩
        obtain ⟨f, hf⟩ := signature_none x.signer a.header (a.resource split.1 split.2) a.cred md
        simp [hq, hf]
  · simp [hinit]

/-- An attempt returns when its request reaches the network and is answered. -/
theorem doGetJSONInternal_ok_iff {J : JsonC} {a : RequestArgs} {md : Option MemoryData} {x : Exchange} {j : Json}
    (hmd : a.qsrt.uploads = true → md.isSome = true) :
    (doGetJSONInternal J a md x).result = .ok j ↔ a.Sendable ∧ x.Answers J a.qsrt j := by
  by_cases h : a.Sendable ∧ x.easyInit = true
  · obtain ⟨headers, heq, _⟩ := doGetJSONInternal_sent J md h.1 hmd h.2
    rw [heq, rethrowing_ok_iff, readAnswer_ok_iff h.2]
    exact ⟨fun hx => ⟨h.1, hx⟩, fun hx => hx.2⟩
  · have hne := (doGetJSONInternal_unsent J md h).2 j
    exact ⟨fun hr => absurd hr hne, fun hx => absurd ⟨hx.1, hx.2.1⟩ h⟩

/-- An attempt of a request that can be sent fails with an exception. -/
theorem doGetJSONInternal_thrown {J : JsonC} {a : RequestArgs} {md : Option MemoryData} {x : Exchange} {f : Fault}
    (hs : a.Sendable) (hmd : a.qsrt.uploads = true → md.isSome = true) (h : (doGetJSONInternal J a md x).result = .error f) :
    f.isThrown = true := by
  have hre : ∀ f : Fault, f.isThrown = true → f.rethrown.isThrown = true := by
    intro f hf
    cases f with
    | thrown e =>
      unfold Fault.rethrown
      dsimp only
      split <;> rfl
    | undefined what => cases hf
  by_cases hinit : x.easyInit = true
  · obtain ⟨headers, heq, _⟩ := doGetJSONInternal_sent J md hs hmd hinit
    rw [heq] at h
    cases hr : readAnswer J a.qsrt x with
    | ok j =>
      simp only [hr, rethrowing] at h
      cases h
    | error g =>
      simp only [hr, rethrowing] at h
      cases h
      exact hre g (readAnswer_error hr)
  · unfold doGetJSONInternal doGetJSONTry at h
    rw [if_pos hinit] at h
    cases h
    rfl

theorem doGetJSONInternal_md {J : JsonC} {a : RequestArgs} {md : Option MemoryData} {x : Exchange}
    (hmd : a.qsrt.uploads = true → md.isSome = true) :
    (doGetJSONInternal J a md x).md = if a.Sendable ∧ x.easyInit = true then a.left md x else md := by
  by_cases h : a.Sendable ∧ x.easyInit = true
  · obtain ⟨headers, heq, _⟩ := doGetJSONInternal_sent J md h.1 hmd h.2
    rw [heq, if_pos h]
  · rw [(doGetJSONInternal_unsent J md h).1, if_neg h]

/-- A request that is sent is for the URL asked for, and that URL could be split. -/
theorem doGetJSONInternal_request {J : JsonC} {a : RequestArgs} {md : Option MemoryData} {x : Exchange} {r : Request}
    (h : (doGetJSONInternal J a md x).request = some r) : r.url = a.url ∧ (qsParseUrl a.url).isOk = true := by
  unfold doGetJSONInternal doGetJSONTry at h
  dsimp only at h
  split at h
  · cases h
  · split at h
    · cases h
    · split at h
      · cases h
      · rename_i path query hsplit
        split at h
        · cases h
        · cases h
          exact ⟨rfl, isOk_iff.2 ⟨_, hsplit⟩⟩

/-! ## The attempts of `DoGetJSON` -/

/-- All requests `DoGetJSON` sends are for the URL it was given, and there are none when that URL cannot be split. -/
theorem doGetJSON_sent (J : JsonC) (a : RequestArgs) (md : Option MemoryData) (retries : Int) (xs : Nat → Exchange) :
    ∀ r ∈ (doGetJSON J a md retries xs).state.sent, r.url = a.url ∧ (qsParseUrl a.url).isOk = true := by
  refine Lib.retry_invariant (P := fun w : Wire => ∀ r ∈ w.sent, r.url = a.url ∧ (qsParseUrl a.url).isOk = true) ?_ _ 0 ?_
  · intro i w hw r hr
    unfold tryGetJSON at hr
    dsimp only at hr
    rcases List.mem_append.1 hr with hr | hr
    · exact hw r hr
    · exact doGetJSONInternal_request (Option.mem_toList.1 hr)
  · intro r hr
    cases hr

/-- The state before attempt `n`. -/
def wireBefore (J : JsonC) (a : RequestArgs) (md : Option MemoryData) (xs : Nat → Exchange) (n : Nat) : Wire :=
  Lib.after (tryGetJSON J a xs) 0 ⟨md, []⟩ n

theorem wireBefore_succ (J : JsonC) (a : RequestArgs) (md : Option MemoryData) (xs : Nat → Exchange) (n : Nat) :
    wireBefore J a md xs (n + 1) =
      ⟨(doGetJSONInternal J a (wireBefore J a md xs n).md (xs n)).md,
        (wireBefore J a md xs n).sent ++ (doGetJSONInternal J a (wireBefore J a md xs n).md (xs n)).request.toList⟩ := by
  unfold wireBefore
  rw [Lib.after, Nat.zero_add]
  rfl

/-- An upload keeps a body through its attempts. -/
theorem wireBefore_isSome (J : JsonC) {a : RequestArgs} {md : Option MemoryData} (xs : Nat → Exchange)
    (hmd : a.qsrt.uploads = true → md.isSome = true) (n : Nat) :
    a.qsrt.uploads = true → (wireBefore J a md xs n).md.isSome = true := by
  induction n with
  | zero => exact hmd
  | succ n ih =>
    intro hu
    rw [wireBefore_succ, doGetJSONInternal_md ih]
    dsimp only
    split
    · rw [RequestArgs.left, if_pos hu, Option.isSome_map]
      exact ih hu
    · exact ih hu

/-- The number of bytes the attempts before the `n`-th ask for. -/
def askedBefore (xs : Nat → Exchange) (n : Nat) : Nat :=
  ((List.range n).map (fun k => if (xs k).easyInit then askedAll (xs k).pulls else 0)).sum

theorem askedBefore_succ (xs : Nat → Exchange) (n : Nat) :
    askedBefore xs (n + 1) = askedBefore xs n + if (xs n).easyInit then askedAll (xs n).pulls else 0 := by
  unfold askedBefore
  rw [List.range_succ, List.map_append, List.sum_append, List.map_singleton, List.sum_singleton]

/-- The body of an upload before an attempt: the attempts before it have moved it on. -/
theorem wireBefore_md (J : JsonC) {a : RequestArgs} (md : MemoryData) (xs : Nat → Exchange) (hq : a.qsrt.uploads = true)
    (hs : a.Sendable) (n : Nat) :
    (wireBefore J a (some md) xs n).md = some (md.moved (min (askedBefore xs n) md.sizeleft)) := by
  induction n with
  | zero =>
    have hnone : askedBefore xs 0 = 0 := rfl
    rw [hnone, Nat.zero_min]
    rfl
  | succ n ih =>
    have hbody : (some md).isSome = true := rfl
    rw [wireBefore_succ, doGetJSONInternal_md (wireBefore_isSome J xs (fun _ => hbody) n), ih, askedBefore_succ]
    dsimp only
    by_cases hinit : (xs n).easyInit = true
    · rw [if_pos ⟨hs, hinit⟩, RequestArgs.left, if_pos hq, Option.map_some, memReadAll_left, MemoryData.moved_moved,
        MemoryData.moved_sizeleft, if_pos hinit]
      congr 2
      omega
    · rw [if_neg (fun h => hinit h.2), if_neg hinit, Nat.add_zero]

/-- No exchange before the `n`-th answers the request. -/
def Unanswered (J : JsonC) (qsrt : QSRequestType) (xs : Nat → Exchange) (n : Nat) : Prop :=
  ∀ k < n, ∀ j, ¬ (xs k).Answers J qsrt j

/-- `DoGetJSON` returns the first answer among its attempts. -/
theorem doGetJSON_ok {J : JsonC} {a : RequestArgs} {md : Option MemoryData} {retries : Int} {xs : Nat → Exchange} {j : Json}
    (hmd : a.qsrt.uploads = true → md.isSome = true) (h : (doGetJSON J a md retries xs).result = .ok j) :
    a.Sendable ∧ ∃ n ≤ (retries - 1).toNat, Unanswered J a.qsrt xs n ∧ (xs n).Answers J a.qsrt j ∧
      doGetJSON J a md retries xs = ⟨⟨.ok j, wireBefore J a md xs (n + 1)⟩, n⟩ := by
  obtain ⟨n, hn, hfail, hok, heq⟩ := Lib.retry_ok h
  have hok' : (doGetJSONInternal J a (wireBefore J a md xs n).md (xs n)).result = .ok j := by
    simpa [tryGetJSON, wireBefore] using hok
  obtain ⟨hs, hx⟩ := (doGetJSONInternal_ok_iff (wireBefore_isSome J xs hmd n)).1 hok'
  refine ⟨hs, n, hn, fun k hk j' hj' => ?_, hx, ?_⟩
  · obtain ⟨e, he, _⟩ := hfail k hk
    have he' : (doGetJSONInternal J a (wireBefore J a md xs k).md (xs k)).result = .error e := by
      simpa [tryGetJSON, wireBefore] using he
    rw [(doGetJSONInternal_ok_iff (wireBefore_isSome J xs hmd k)).2 ⟨hs, hj'⟩] at he'
    cases he'
  · simpa [doGetJSON, wireBefore] using heq

/-- A first answer among the attempts allowed is what `DoGetJSON` returns. -/
theorem doGetJSON_of_first {J : JsonC} {a : RequestArgs} {md : Option MemoryData} {retries : Int} {xs : Nat → Exchange}
    {n : Nat} {j : Json} (hs : a.Sendable) (hmd : a.qsrt.uploads = true → md.isSome = true)
    (hn : n ≤ (retries - 1).toNat) (hfail : Unanswered J a.qsrt xs n) (hx : (xs n).Answers J a.qsrt j) :
    doGetJSON J a md retries xs = ⟨⟨.ok j, wireBefore J a md xs (n + 1)⟩, n⟩ := by
  have h := Lib.retry_of_first (tryGetJSON J a xs) Fault.isThrown 0 ⟨md, []⟩ (a := j) hn (fun k hk => ?_) ?_
  · simpa [doGetJSON, wireBefore] using h
  · rw [Nat.zero_add]
    cases hr : (doGetJSONInternal J a (wireBefore J a md xs k).md (xs k)).result with
    | ok j' => exact absurd ((doGetJSONInternal_ok_iff (wireBefore_isSome J xs hmd k)).1 hr).2 (hfail k hk j')
    | error f => exact ⟨f, hr, doGetJSONInternal_thrown hs (wireBefore_isSome J xs hmd k) hr⟩
  · rw [Nat.zero_add]
    exact (doGetJSONInternal_ok_iff (wireBefore_isSome J xs hmd n)).2 ⟨hs, hx⟩

/-! ## Exchanges to evaluate the code on -/

namespace Sample

/-- The answer of the service to the opening of an upload. -/
def initAnswer : Str := lit "\x7b\"key\":\"k\",\"upload_id\":\"u\"\x7d"

/-- json-c on the texts of the sample exchanges. -/
def json : JsonC where
  tokenerParse text :=
    if text = initAnswer then .object [(lit "key", .string (lit "k")), (lit "upload_id", .string (lit "u"))] else .null
  toJsonString _ := lit "\x7b \"object_parts\": [ \x7b \"part_number\": 0 \x7d ] \x7d"
  parseInt64 _ := 0

def signer : Signer := ⟨lit "Mon, 02 Jan 2017 15:04:05 GMT", fun _ _ => lit "c2lnbmF0dXJl"⟩

/-- An exchange whose transfer ends well. -/
def answer (pulls : List (Nat × Nat)) (status : Nat) (body : List Str) : Exchange :=
  ⟨true, signer, pulls, [], body, status, .ok⟩

/-- An exchange whose transfer ends with an error of curl. -/
def broken (pulls : List (Nat × Nat)) : Exchange := ⟨true, signer, pulls, [], [], 0, .failure (.other 56)⟩

def partArgs : RequestArgs :=
  ⟨lit "b.pek3a.qingstor.com", lit "https://b.pek3a.qingstor.com/k?part_number=0&upload_id=u", some (lit "b"), none,
    ⟨lit "id", lit "secret"⟩, .uploadMp⟩

end Sample

end QingStor
