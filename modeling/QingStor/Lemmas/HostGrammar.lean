import QingStor.Lemmas.UrlGrammar
import QingStor.Lemmas.UrlHost

/-!
# What was read of an authority

A scanner that keeps what it has read of each part of an authority. The state machine over the host is this scanner with the
parts forgotten but for their places.
-/

namespace QingStor

/-- What was read of an authority: a part of its user information, a host with a part of it, or a part of its port. -/
inductive HostPrefix where
  | userinfo (u : Str)
  | name (u : Option Str) (h : Str)
  | v6 (u : Option Str) (address : Str)
  | zone (u : Option Str) (address zone : Str)
  | closed (u : Option Str) (address : Str) (zone : Option Str)
  | port (u : Option Str) (h : HostText) (p : Str)

namespace HostPrefix

/-- The bytes that were read. -/
def text : HostPrefix → Str
  | userinfo u => u
  | name u h => userinfoText u ++ h
  | v6 u address => userinfoText u ++ '['.toUInt8 :: address
  | zone u address z => userinfoText u ++ '['.toUInt8 :: (address ++ zoneText (some z))
  | closed u address z => userinfoText u ++ (HostText.v6 address z).text
  | port u h p => userinfoText u ++ h.text ++ portText (some p)

/-- One more byte of an authority. -/
def next : HostPrefix → Byte → Option HostPrefix
  | userinfo u, c => if c = '@'.toUInt8 then some (name (some u) []) else if isUserinfoChar c then some (userinfo (u ++ [c])) else none
  | name u h, c =>
    if h = [] ∧ c = '['.toUInt8 then some (v6 u [])
    else if isHostChar c then some (name u (h ++ [c]))
    else if h ≠ [] ∧ c = ':'.toUInt8 then some (port u (.name h) []) else none
  | v6 u address, c =>
    if address ≠ [] ∧ c = ']'.toUInt8 then some (closed u address none)
    else if isV6Char c then some (v6 u (address ++ [c]))
    else if address ≠ [] ∧ c = '%'.toUInt8 then some (zone u address []) else none
  | zone u address z, c =>
    if z ≠ [] ∧ c = ']'.toUInt8 then some (closed u address (some z))
    else if isZoneChar c then some (zone u address (z ++ [c])) else none
  | closed u address z, c => if c = ':'.toUInt8 then some (port u (.v6 address z) []) else none
  | port u h p, c => if isNum c then some (port u h (p ++ [c])) else none

/-- The state of the machine. -/
def state : HostPrefix → HostState
  | userinfo u => if u = [] then .userinfoStart else .userinfo
  | name _ h => if h = [] then .hostStart else .host
  | v6 _ address => if address = [] then .hostV6Start else .hostV6
  | zone _ _ z => if z = [] then .hostV6ZoneStart else .hostV6Zone
  | closed .. => .hostV6End
  | port _ _ p => if p = [] then .hostPortStart else .hostPort

/-- The field of a host at a place; before there is one it stands, empty, at the beginning of the authority. -/
def hostAt (start off : Nat) (s : Str) : Option Span :=
  if s = [] then some ⟨start, 0⟩ else some ⟨off % 2 ^ 16, s.length % 2 ^ 16⟩

/-- The fields of an authority that begins at `off`, in place of those of `b`. -/
def fields (off : Nat) (b : HttpParserUrl) : HostPrefix → HttpParserUrl
  | userinfo u => { b with host := hostAt off off [], userinfo := fieldAt off u }
  | name u h => { b with host := hostAt off (off + (userinfoText u).length) h, userinfo := u.bind (fieldAt off) }
  | v6 u address => { b with host := hostAt off (off + (userinfoText u).length + 1) address, userinfo := u.bind (fieldAt off) }
  | zone u address z =>
    { b with
      host := hostAt off (off + (userinfoText u).length + 1) (address ++ zoneText (some z))
      userinfo := u.bind (fieldAt off) }
  | closed u address z =>
    { b with
      host := hostAt off (off + (userinfoText u).length + 1) (address ++ zoneText z)
      userinfo := u.bind (fieldAt off) }
  | port u h p =>
    { b with
      host := hostAt off (off + (userinfoText u).length + h.start) h.content
      userinfo := u.bind (fieldAt off)
      port := fieldAt (off + (userinfoText u).length + h.text.length + 1) p }

/-- The scan that has read it. -/
def scan (off : Nat) (b : HttpParserUrl) (p : HostPrefix) : HostScan := ⟨p.state, off + p.text.length, p.fields off b⟩

/-- The field of a host that was read for one more byte. -/
theorem hostAt_concat (start off : Nat) (s : Str) (c : Byte) :
    hostAt start off (s ++ [c]) = some ⟨off % 2 ^ 16, (s.length + 1) % 2 ^ 16⟩ := by
  rw [hostAt, if_neg (by simp), List.length_append]
  rfl

/-- The field of a host that is there. -/
theorem hostAt_of_ne {start off : Nat} {s : Str} (h : s ≠ []) : hostAt start off s = fieldAt off s := by
  rw [hostAt, fieldAt, if_neg h, if_neg h]

/-- A byte that is read is the next one of the text. -/
theorem text_next (p : HostPrefix) (c : Byte) (q : HostPrefix) (h : p.next c = some q) : q.text = p.text ++ [c] := by
  cases p with
  | userinfo u =>
    unfold next at h
    dsimp only at h
    split at h
    · rename_i hc
      cases h
      rw [hc]
      exact List.append_nil _
    · split at h <;> cases h
      rfl
  | name u n =>
    unfold next at h
    dsimp only at h
    split at h
    · rename_i hc
      cases h
      rw [hc.1, hc.2]
      simp [text]
    · split at h
      · cases h
        simp [text]
      · split at h <;> cases h
        rename_i hc
        rw [hc.2]
        simp [text, portText, HostText.text]
  | v6 u address =>
    unfold next at h
    dsimp only at h
    split at h
    · rename_i hc
      cases h
      rw [hc.2]
      simp [text, HostText.text, zoneText]
      rfl
    · split at h
      · cases h
        simp [text]
      · split at h <;> cases h
        rename_i hc
        rw [hc.2]
        simp [text, zoneText]
  | zone u address z =>
    unfold next at h
    dsimp only at h
    split at h
    · rename_i hc
      cases h
      rw [hc.2]
      simp [text, HostText.text, zoneText]
      rfl
    · split at h <;> cases h
      simp [text, zoneText]
  | closed u address z =>
    unfold next at h
    dsimp only at h
    split at h <;> cases h
    rename_i hc
    rw [hc]
    simp [text, portText]
  | port u n p =>
    unfold next at h
    dsimp only at h
    split at h <;> cases h
    simp [text, portText]

/-! ## The steps of the machine -/

/-- The scan stops at a byte the state does not take. -/
theorem hostStep_dead {z : HostScan} {c : Byte} (h : httpParseHostChar z.s c = .dead) : hostStep z c = none := by
  unfold hostStep
  rw [h]

/-- A step over a delimiter. -/
theorem hostStep_delimiter {z : HostScan} {c : Byte} {s : HostState} (h : httpParseHostChar z.s c = s)
    (hs : s = .hostStart ∨ s = .hostV6Start ∨ s = .hostV6End ∨ s = .hostPortStart) :
    hostStep z c = some ⟨s, z.pos + 1, z.u⟩ := by
  unfold hostStep
  rw [h]
  rcases hs with rfl | rfl | rfl | rfl <;> rfl

/-- A step that adds a byte to a host. -/
theorem hostStep_host {z : HostScan} {c : Byte} {s : HostState} {start off : Nat} {t : Str} (h : httpParseHostChar z.s c = s)
    (hs : s = .host ∨ s = .hostV6) (hget : z.u.host = hostAt start off t) (hold : z.s = s ↔ t ≠ []) (hpos : z.pos = off + t.length) :
    hostStep z c = some ⟨s, z.pos + 1, { z.u with host := hostAt start off (t ++ [c]) }⟩ := by
  have hbump : t ≠ [] → z.u.bump .host = { z.u with host := hostAt start off (t ++ [c]) } := by
    intro ht
    rw [HttpParserUrl.bump, HttpParserUrl.get, hget, hostAt, if_neg ht, hostAt_concat]
    dsimp only
    rw [Nat.mod_add_mod]
    rfl
  have hopen : t = [] → z.u.host.map (fun f => (⟨z.pos % 2 ^ 16, (f.len + 1) % 2 ^ 16⟩ : Span)) = hostAt start off (t ++ [c]) := by
    intro ht
    rw [hostAt_concat, hget, hpos, ht]
    rfl
  have hset : (if z.s = s then z.u.bump .host
      else { z.u with host := z.u.host.map (fun f => ⟨z.pos % 2 ^ 16, (f.len + 1) % 2 ^ 16⟩) }) =
      { z.u with host := hostAt start off (t ++ [c]) } := by
    by_cases ht : t = []
    · rw [if_neg (fun ho => hold.1 ho ht), hopen ht]
    · rw [if_pos (hold.2 ht), hbump ht]
  unfold hostStep
  rw [h]
  rcases hs with rfl | rfl <;> exact congrArg some (congrArg (HostScan.mk _ _) hset)

/-- A step that adds a byte to a zone. -/
theorem hostStep_zone {z : HostScan} {c : Byte} {s : HostState} {start off : Nat} {t : Str} (h : httpParseHostChar z.s c = s)
    (hs : s = .hostV6ZoneStart ∨ s = .hostV6Zone) (hget : z.u.host = hostAt start off t) (ht : t ≠ []) :
    hostStep z c = some ⟨s, z.pos + 1, { z.u with host := hostAt start off (t ++ [c]) }⟩ := by
  have hbump : z.u.bump .host = { z.u with host := hostAt start off (t ++ [c]) } := by
    rw [HttpParserUrl.bump, HttpParserUrl.get, hget, hostAt, if_neg ht, hostAt_concat]
    dsimp only
    rw [Nat.mod_add_mod]
    rfl
  unfold hostStep
  rw [h]
  rcases hs with rfl | rfl <;> exact congrArg some (congrArg (HostScan.mk _ _) hbump)

/-- A step that adds a byte to the user information or to a port. -/
theorem hostStep_push {z : HostScan} {c : Byte} {s : HostState} {f : UrlField} {off : Nat} {t : Str} (h : httpParseHostChar z.s c = s)
    (hs : s = .userinfo ∧ f = .userinfo ∨ s = .hostPort ∧ f = .port) (hget : z.u.get f = fieldAt off t) (hold : z.s = s ↔ t ≠ [])
    (hpos : z.pos = off + t.length) :
    hostStep z c = some ⟨s, z.pos + 1, z.u.set f ⟨off % 2 ^ 16, (t.length + 1) % 2 ^ 16⟩⟩ := by
  have hset : (if z.s = s then z.u.bump f else z.u.open f z.pos) = z.u.set f ⟨off % 2 ^ 16, (t.length + 1) % 2 ^ 16⟩ := by
    by_cases ht : t = []
    · rw [if_neg (fun ho => hold.1 ho ht), HttpParserUrl.open, hpos, ht]
      rfl
    · rw [if_pos (hold.2 ht), HttpParserUrl.bump, hget, fieldAt, if_neg ht]
      dsimp only
      rw [Nat.mod_add_mod]
  unfold hostStep
  rw [h]
  rcases hs with ⟨rfl, rfl⟩ | ⟨rfl, rfl⟩ <;> exact congrArg some (congrArg (HostScan.mk _ _) hset)

/-- The scan after one more byte. -/
theorem scan_of_next {off : Nat} {b : HttpParserUrl} {p q : HostPrefix} {c : Byte} {s : HostState} {u : HttpParserUrl}
    (hq : p.next c = some q) (hs : s = q.state) (hu : u = q.fields off b) :
    some ⟨s, (p.scan off b).pos + 1, u⟩ = (p.next c).map (scan off b) := by
  rw [hq, hs, hu, Option.map_some]
  unfold scan
  rw [text_next p c q hq, List.length_append]
  rfl

/-- The scan reads a userinfo as the grammar does. -/
theorem scan_userinfo {off : Nat} {b : HttpParserUrl} (u : Str) (c : Byte) :
    hostStep ((userinfo u).scan off b) c = ((userinfo u).next c).map (scan off b) := by
  have hstate : httpParseHostChar ((userinfo u).scan off b).s c =
      if c = '@'.toUInt8 then .hostStart else if isUserinfoChar c then .userinfo else .dead := by
    show httpParseHostChar (if u = [] then .userinfoStart else .userinfo) c = _
    split <;> rfl
  have hnext : (userinfo u).next c =
      if c = '@'.toUInt8 then some (name (some u) []) else if isUserinfoChar c then some (userinfo (u ++ [c])) else none := rfl
  by_cases hat : c = '@'.toUInt8
  · rw [if_pos hat] at hstate hnext
    rw [hostStep_delimiter hstate (Or.inl rfl)]
    exact scan_of_next hnext rfl rfl
  · rw [if_neg hat] at hstate hnext
    by_cases hc : isUserinfoChar c = true
    · rw [if_pos hc] at hstate hnext
      have hold : ((userinfo u).scan off b).s = .userinfo ↔ u ≠ [] := by
        show (if u = [] then HostState.userinfoStart else .userinfo) = .userinfo ↔ u ≠ []
        split <;> simp_all
      rw [hostStep_push (f := .userinfo) hstate (Or.inl ⟨rfl, rfl⟩) rfl hold rfl]
      refine scan_of_next hnext ?_ ?_
      · exact (if_neg (by simp)).symm
      · show _ = { b with host := hostAt off off [], userinfo := fieldAt off (u ++ [c]) }
        rw [fieldAt_concat]
        rfl
    · rw [if_neg hc] at hstate hnext
      rw [hostStep_dead hstate, hnext]
      rfl

/-- So it does a host name. -/
theorem scan_name {off : Nat} {b : HttpParserUrl} (hb : b.port = none) (u : Option Str) (n : Str) (c : Byte) :
    hostStep ((name u n).scan off b) c = ((name u n).next c).map (scan off b) := by
  have hstate : httpParseHostChar ((name u n).scan off b).s c =
      if n = [] ∧ c = '['.toUInt8 then .hostV6Start
      else if isHostChar c then .host else if n ≠ [] ∧ c = ':'.toUInt8 then .hostPortStart else .dead := by
    show httpParseHostChar (if n = [] then .hostStart else .host) c = _
    by_cases hn : n = [] <;> simp [hn, httpParseHostChar]
  have hnext : (name u n).next c =
      if n = [] ∧ c = '['.toUInt8 then some (v6 u [])
      else if isHostChar c then some (name u (n ++ [c]))
      else if n ≠ [] ∧ c = ':'.toUInt8 then some (port u (.name n) []) else none := rfl
  by_cases hv : n = [] ∧ c = '['.toUInt8
  · rw [if_pos hv] at hstate hnext
    rw [hostStep_delimiter hstate (Or.inr (Or.inl rfl))]
    refine scan_of_next hnext rfl ?_
    rw [hv.1]
    rfl
  · rw [if_neg hv] at hstate hnext
    by_cases hc : isHostChar c = true
    · rw [if_pos hc] at hstate hnext
      have hold : ((name u n).scan off b).s = .host ↔ n ≠ [] := by
        show (if n = [] then HostState.hostStart else .host) = .host ↔ n ≠ []
        split <;> simp_all
      rw [hostStep_host hstate (Or.inl rfl) rfl hold (by
        simp [scan, text]
        omega)]
      exact scan_of_next hnext (if_neg (by simp)).symm rfl
    · rw [if_neg hc] at hstate hnext
      by_cases hp : n ≠ [] ∧ c = ':'.toUInt8
      · rw [if_pos hp] at hstate hnext
        rw [hostStep_delimiter hstate (by simp)]
        refine scan_of_next hnext rfl ?_
        simp [scan, fields, HostText.start, HostText.content, fieldAt, hb]
      · rw [if_neg hp] at hstate hnext
        rw [hostStep_dead hstate, hnext]
        rfl

/-- So it does an IPv6 address. -/
theorem scan_v6 {off : Nat} {b : HttpParserUrl} (u : Option Str) (a : Str) (c : Byte) :
    hostStep ((v6 u a).scan off b) c = ((v6 u a).next c).map (scan off b) := by
  have hstate : httpParseHostChar ((v6 u a).scan off b).s c =
      if a ≠ [] ∧ c = ']'.toUInt8 then .hostV6End
      else if isV6Char c then .hostV6 else if a ≠ [] ∧ c = '%'.toUInt8 then .hostV6ZoneStart else .dead := by
    show httpParseHostChar (if a = [] then .hostV6Start else .hostV6) c = _
    by_cases ha : a = [] <;> simp [ha, httpParseHostChar, isV6Char, or_assoc]
  have hnext : (v6 u a).next c =
      if a ≠ [] ∧ c = ']'.toUInt8 then some (closed u a none)
      else if isV6Char c then some (v6 u (a ++ [c]))
      else if a ≠ [] ∧ c = '%'.toUInt8 then some (zone u a []) else none := rfl
  by_cases he : a ≠ [] ∧ c = ']'.toUInt8
  · rw [if_pos he] at hstate hnext
    rw [hostStep_delimiter hstate (by simp)]
    refine scan_of_next hnext rfl ?_
    simp [scan, fields, zoneText]
  · rw [if_neg he] at hstate hnext
    by_cases hc : isV6Char c = true
    · rw [if_pos hc] at hstate hnext
      have hold : ((v6 u a).scan off b).s = .hostV6 ↔ a ≠ [] := by
        show (if a = [] then HostState.hostV6Start else .hostV6) = .hostV6 ↔ a ≠ []
        split <;> simp_all
      rw [hostStep_host hstate (Or.inr rfl) rfl hold (by
        simp [scan, text]
        omega)]
      exact scan_of_next hnext (if_neg (by simp)).symm rfl
    · rw [if_neg hc] at hstate hnext
      by_cases hz : a ≠ [] ∧ c = '%'.toUInt8
      · rw [if_pos hz] at hstate hnext
        rw [hostStep_zone hstate (Or.inl rfl) rfl hz.1]
        refine scan_of_next hnext rfl ?_
        rw [hz.2]
        rfl
      · rw [if_neg hz] at hstate hnext
        rw [hostStep_dead hstate, hnext]
        rfl

/-- So it does a zone. -/
theorem scan_zone {off : Nat} {b : HttpParserUrl} (u : Option Str) (a z : Str) (c : Byte) :
    hostStep ((zone u a z).scan off b) c = ((zone u a z).next c).map (scan off b) := by
  have hstate : httpParseHostChar ((zone u a z).scan off b).s c =
      if z ≠ [] ∧ c = ']'.toUInt8 then .hostV6End else if isZoneChar c then .hostV6Zone else .dead := by
    show httpParseHostChar (if z = [] then .hostV6ZoneStart else .hostV6Zone) c = _
    by_cases hz : z = [] <;> simp [hz, httpParseHostChar, isZoneChar]
  have hnext : (zone u a z).next c =
      if z ≠ [] ∧ c = ']'.toUInt8 then some (closed u a (some z))
      else if isZoneChar c then some (zone u a (z ++ [c])) else none := rfl
  by_cases he : z ≠ [] ∧ c = ']'.toUInt8
  · rw [if_pos he] at hstate hnext
    rw [hostStep_delimiter hstate (by simp)]
    exact scan_of_next hnext rfl rfl
  · rw [if_neg he] at hstate hnext
    by_cases hc : isZoneChar c = true
    · rw [if_pos hc] at hstate hnext
      have hne : a ++ zoneText (some z) ≠ [] := by simp [zoneText]
      rw [hostStep_zone hstate (Or.inr rfl) rfl hne]
      refine scan_of_next hnext (if_neg (by simp)).symm ?_
      simp [scan, fields, zoneText]
    · rw [if_neg hc] at hstate hnext
      rw [hostStep_dead hstate, hnext]
      rfl

/-- After the closing bracket it takes the colon of a port only. -/
theorem scan_closed {off : Nat} {b : HttpParserUrl} (hb : b.port = none) (u : Option Str) (a : Str) (z : Option Str) (c : Byte) :
    hostStep ((closed u a z).scan off b) c = ((closed u a z).next c).map (scan off b) := by
  have hstate : httpParseHostChar ((closed u a z).scan off b).s c = if c = ':'.toUInt8 then .hostPortStart else .dead := rfl
  have hnext : (closed u a z).next c = if c = ':'.toUInt8 then some (port u (.v6 a z) []) else none := rfl
  by_cases hc : c = ':'.toUInt8
  · rw [if_pos hc] at hstate hnext
    rw [hostStep_delimiter hstate (by simp)]
    refine scan_of_next hnext rfl ?_
    simp [scan, fields, HostText.start, HostText.content, fieldAt, hb]
  · rw [if_neg hc] at hstate hnext
    rw [hostStep_dead hstate, hnext]
    rfl

/-- It reads a port as the grammar does. -/
theorem scan_port {off : Nat} {b : HttpParserUrl} (u : Option Str) (h : HostText) (p : Str) (c : Byte) :
    hostStep ((port u h p).scan off b) c = ((port u h p).next c).map (scan off b) := by
  have hstate : httpParseHostChar ((port u h p).scan off b).s c = if isNum c then .hostPort else .dead := by
    show httpParseHostChar (if p = [] then .hostPortStart else .hostPort) c = _
    split <;> rfl
  have hnext : (port u h p).next c = if isNum c then some (port u h (p ++ [c])) else none := rfl
  by_cases hc : isNum c = true
  · rw [if_pos hc] at hstate hnext
    have hold : ((port u h p).scan off b).s = .hostPort ↔ p ≠ [] := by
      show (if p = [] then HostState.hostPortStart else .hostPort) = .hostPort ↔ p ≠ []
      split <;> simp_all
    rw [hostStep_push (f := .port) hstate (Or.inr ⟨rfl, rfl⟩) rfl hold (by
      simp [scan, text, portText]
      omega)]
    refine scan_of_next hnext (if_neg (by simp)).symm ?_
    simp [scan, fields, HttpParserUrl.set, fieldAt_concat]
  · rw [if_neg hc] at hstate hnext
    rw [hostStep_dead hstate, hnext]
    rfl

/-- The scan reads every byte of an authority as the grammar does. -/
theorem scan_next {off : Nat} {b : HttpParserUrl} (hb : b.port = none) (p : HostPrefix) (c : Byte) :
    hostStep (p.scan off b) c = (p.next c).map (scan off b) := by
  cases p with
  | userinfo u => exact scan_userinfo u c
  | name u n => exact scan_name hb u n c
  | v6 u a => exact scan_v6 u a c
  | zone u a z => exact scan_zone u a z c
  | closed u a z => exact scan_closed hb u a z c
  | port u h p => exact scan_port u h p c

/-! ## What was read is a part of an authority -/

/-- The bytes of user information. -/
def UserinfoOk (u : Option Str) : Prop := ∀ s, u = some s → ∀ c ∈ s, isUserinfoChar c = true

/-- The parts that were read follow the grammar. -/
def Ok : HostPrefix → Prop
  | userinfo u => UserinfoOk (some u)
  | name u n => UserinfoOk u ∧ ∀ c ∈ n, isHostChar c = true
  | v6 u a => UserinfoOk u ∧ ∀ c ∈ a, isV6Char c = true
  | zone u a z => UserinfoOk u ∧ (a ≠ [] ∧ ∀ c ∈ a, isV6Char c = true) ∧ ∀ c ∈ z, isZoneChar c = true
  | closed u a z => UserinfoOk u ∧ (HostText.v6 a z).WellFormed
  | port u h p => UserinfoOk u ∧ h.WellFormed ∧ ∀ c ∈ p, isNum c = true

/-- Whether there is user information. -/
def hasUserinfo : HostPrefix → Bool
  | userinfo _ => true
  | name u _ | v6 u _ | zone u _ _ | closed u _ _ | port u _ _ => u.isSome

/-- A byte that is read keeps the parts in the grammar. -/
theorem ok_next (p : HostPrefix) (c : Byte) (q : HostPrefix) (hp : p.Ok) (h : p.next c = some q) :
    q.Ok ∧ q.hasUserinfo = p.hasUserinfo := by
  cases p with
  | userinfo u =>
    unfold next at h
    dsimp only at h
    split at h
    · cases h
      exact ⟨⟨hp, by simp⟩, rfl⟩
    · split at h <;> cases h
      rename_i hc
      refine ⟨fun s hs => ?_, rfl⟩
      obtain rfl := Option.some.inj hs
      exact UrlPrefix.forall_concat (hp u rfl) hc
  | name u n =>
    unfold next at h
    dsimp only at h
    split at h
    · cases h
      exact ⟨⟨hp.1, by simp⟩, rfl⟩
    · split at h
      · rename_i hc
        cases h
        exact ⟨⟨hp.1, UrlPrefix.forall_concat hp.2 hc⟩, rfl⟩
      · split at h <;> cases h
        rename_i hc
        exact ⟨⟨hp.1, ⟨hc.1, hp.2⟩, by simp⟩, rfl⟩
  | v6 u a =>
    unfold next at h
    dsimp only at h
    split at h
    · rename_i hc
      cases h
      exact ⟨⟨hp.1, ⟨hc.1, hp.2⟩, fun s hs => by cases hs⟩, rfl⟩
    · split at h
      · rename_i hc
        cases h
        exact ⟨⟨hp.1, UrlPrefix.forall_concat hp.2 hc⟩, rfl⟩
      · split at h <;> cases h
        rename_i hc
        exact ⟨⟨hp.1, ⟨hc.1, hp.2⟩, by simp⟩, rfl⟩
  | zone u a z =>
    unfold next at h
    dsimp only at h
    split at h
    · rename_i hc
      cases h
      refine ⟨⟨hp.1, hp.2.1, fun s hs => ?_⟩, rfl⟩
      obtain rfl := Option.some.inj hs
      exact ⟨hc.1, hp.2.2⟩
    · split at h <;> cases h
      rename_i hc
      exact ⟨⟨hp.1, hp.2.1, UrlPrefix.forall_concat hp.2.2 hc⟩, rfl⟩
  | closed u a z =>
    unfold next at h
    dsimp only at h
    split at h <;> cases h
    exact ⟨⟨hp.1, hp.2, by simp⟩, rfl⟩
  | port u h' p =>
    unfold next at h
    dsimp only at h
    split at h <;> cases h
    rename_i hc
    exact ⟨⟨hp.1, hp.2.1, UrlPrefix.forall_concat hp.2.2 hc⟩, rfl⟩

/-- What an authority is read from. -/
def start (foundAt : Bool) : HostPrefix := if foundAt then userinfo [] else name none []

/-- The authority that was read, if it may end here. -/
def authority : HostPrefix → Option Authority
  | name u n => if n = [] then none else some ⟨u, .name n, none⟩
  | closed u a z => some ⟨u, .v6 a z, none⟩
  | port u h p => if p = [] then none else some ⟨u, h, some p⟩
  | _ => none

/-- The states the scan must not end in are those where no authority may end. -/
theorem unfinished_eq (p : HostPrefix) : p.state.unfinished = p.authority.isNone := by
  cases p with
  | closed => rfl
  | _ =>
    unfold state authority
    dsimp only
    split <;> rfl

end HostPrefix

namespace HostText

/-- A host has bytes. -/
theorem content_ne {h : HostText} (hw : h.WellFormed) : h.content ≠ [] := by
  cases h with
  | name s => exact hw.1
  | v6 a z => exact List.append_ne_nil_of_left_ne_nil hw.1.1 _

end HostText

/-- The parts of an authority follow the grammar; its port may be any number. -/
structure Authority.Read (a : Authority) : Prop where
  userinfo : HostPrefix.UserinfoOk a.userinfo
  host : a.host.WellFormed
  port : ∀ p, a.port = some p → p ≠ [] ∧ ∀ c ∈ p, isNum c = true

namespace HostPrefix

/-- The authority that was read, with its text and its fields. -/
theorem authority_read {off : Nat} {b : HttpParserUrl} (hb : b.port = none) {p : HostPrefix} {a : Authority} (hp : p.Ok)
    (h : p.authority = some a) :
    a.Read ∧ a.text = p.text ∧ a.userinfo.isSome = p.hasUserinfo ∧ a.fields off b = p.fields off b := by
  cases p with
  | name u n =>
    unfold authority at h
    dsimp only at h
    split at h <;> cases h
    rename_i hn
    refine ⟨⟨hp.1, ⟨hn, hp.2⟩, fun s hs => by cases hs⟩, List.append_nil _, rfl, ?_⟩
    simp [Authority.fields, fields, HostText.start, HostText.content, hostAt_of_ne hn, hb]
  | closed u address z =>
    cases h
    have hne := HostText.content_ne hp.2
    refine ⟨⟨hp.1, hp.2, fun s hs => by cases hs⟩, List.append_nil _, rfl, ?_⟩
    show _ = { b with
      host := hostAt off (off + (userinfoText u).length + 1) (HostText.v6 address z).content
      userinfo := u.bind (fieldAt off) }
    rw [hostAt_of_ne hne]
    simp [Authority.fields, HostText.start, hb]
  | port u n p =>
    unfold authority at h
    dsimp only at h
    split at h <;> cases h
    rename_i hne
    refine ⟨⟨hp.1, hp.2.1, fun s hs => ?_⟩, rfl, rfl, ?_⟩
    · obtain rfl := Option.some.inj hs
      exact ⟨hne, hp.2.2⟩
    · show _ = { b with
        host := hostAt off (off + (userinfoText u).length + n.start) n.content
        userinfo := u.bind (fieldAt off)
        port := fieldAt (off + (userinfoText u).length + n.text.length + 1) p }
      rw [hostAt_of_ne (HostText.content_ne hp.2.1)]
      rfl
  | _ => cases h

/-! ## An authority is read part by part -/

/-- What is read of a host. -/
def hosted (u : Option Str) : HostText → HostPrefix
  | .name n => name u n
  | .v6 a z => closed u a z

/-- A userinfo is read, with the `@` behind it. -/
theorem read_userinfo {u : Option Str} (hu : UserinfoOk u) : (userinfoText u).foldlM next (start u.isSome) = some (name u []) := by
  cases u with
  | none => rfl
  | some s =>
    have hs : s.foldlM next (start true) = some (userinfo s) := by
      refine Lib.scan_part (g := userinfo) [] (fun x c y hsplit => ?_)
      have hc : isUserinfoChar c = true := hu s rfl c (by rw [hsplit]; simp)
      have hat : c ≠ '@'.toUInt8 := by
        rintro rfl
        exact absurd hc (by decide)
      unfold next
      dsimp only
      rw [List.nil_append, if_neg hat, if_pos hc]
    rw [userinfoText, Option.isSome_some, Lib.scan_append hs]
    rfl

/-- A zone is read, with the bracket behind it. -/
theorem read_zone (u : Option Str) (a : Str) {z : Str} (hne : z ≠ []) (hz : ∀ c ∈ z, isZoneChar c = true) :
    (z ++ lit "]").foldlM next (zone u a []) = some (closed u a (some z)) := by
  have hread : z.foldlM next (zone u a []) = some (zone u a z) := by
    refine Lib.scan_part (g := fun z => zone u a z) [] (fun x c y hsplit => ?_)
    have hc : isZoneChar c = true := hz c (by rw [hsplit]; simp)
    have hend : ¬ (x ≠ [] ∧ c = ']'.toUInt8) := by
      rintro ⟨_, rfl⟩
      exact absurd hc (by decide)
    unfold next
    dsimp only
    rw [List.nil_append, if_neg hend, if_pos hc]
  have hclose : (zone u a z).next ']'.toUInt8 = some (closed u a (some z)) := if_pos ⟨hne, rfl⟩
  rw [Lib.scan_append hread, show lit "]" = [']'.toUInt8] from rfl, List.foldlM_cons, hclose]
  rfl

/-- A host is read. -/
theorem read_host (u : Option Str) {h : HostText} (hw : h.WellFormed) : h.text.foldlM next (name u []) = some (hosted u h) := by
  cases h with
  | name n =>
    refine Lib.scan_part (g := fun n => name u n) (s := n) [] (fun x c y hsplit => ?_)
    have hc : isHostChar c = true := hw.2 c (by rw [hsplit]; simp)
    have hv6 : ¬ (x = [] ∧ c = '['.toUInt8) := by
      rintro ⟨_, rfl⟩
      exact absurd hc (by decide)
    unfold next
    dsimp only
    rw [List.nil_append, if_neg hv6, if_pos hc]
  | v6 a z =>
    obtain ⟨⟨hne, ha⟩, hz⟩ := hw
    have hopen : (name u []).next '['.toUInt8 = some (v6 u []) := rfl
    have hread : a.foldlM next (v6 u []) = some (v6 u a) := by
      refine Lib.scan_part (g := fun a => v6 u a) [] (fun x c y hsplit => ?_)
      have hc : isV6Char c = true := ha c (by rw [hsplit]; simp)
      have hend : ¬ (x ≠ [] ∧ c = ']'.toUInt8) := by
        rintro ⟨_, rfl⟩
        exact absurd hc (by decide)
      unfold next
      dsimp only
      rw [List.nil_append, if_neg hend, if_pos hc]
    rw [HostText.text, List.foldlM_cons, hopen]
    show (a ++ zoneText z ++ lit "]").foldlM next (v6 u []) = some (closed u a z)
    rw [List.append_assoc, Lib.scan_append hread]
    cases z with
    | none =>
      have hclose : (v6 u a).next ']'.toUInt8 = some (closed u a none) := if_pos ⟨hne, rfl⟩
      rw [zoneText, List.nil_append, show lit "]" = [']'.toUInt8] from rfl, List.foldlM_cons, hclose]
      rfl
    | some z =>
      have hpercent : (v6 u a).next '%'.toUInt8 = some (zone u a []) := by
        unfold next
        dsimp only
        rw [if_neg (fun h => absurd h.2 (by decide)), if_neg (by decide), if_pos ⟨hne, rfl⟩]
      rw [zoneText, List.cons_append, List.foldlM_cons, hpercent]
      exact read_zone u a (hz z rfl).1 (hz z rfl).2

/-- A port is read, and the authority may end there. -/
theorem read_port (u : Option Str) {h : HostText} (hw : h.WellFormed) {p : Option Str}
    (hp : ∀ s, p = some s → s ≠ [] ∧ ∀ c ∈ s, isNum c = true) :
    ∃ q, (portText p).foldlM next (hosted u h) = some q ∧ q.authority = some ⟨u, h, p⟩ := by
  cases p with
  | none =>
    refine ⟨hosted u h, rfl, ?_⟩
    cases h with
    | name n => exact if_neg hw.1
    | v6 => rfl
  | some s =>
    have hcolon : (hosted u h).next ':'.toUInt8 = some (port u h []) := by
      cases h with
      | name n =>
        unfold hosted next
        dsimp only
        rw [if_neg (fun h => absurd h.2 (by decide)), if_neg (by decide), if_pos ⟨hw.1, rfl⟩]
      | v6 => rfl
    refine ⟨port u h s, ?_, if_neg (hp s rfl).1⟩
    rw [portText, List.foldlM_cons, hcolon]
    refine Lib.scan_part (g := fun s => port u h s) [] (fun x c y hsplit => ?_)
    exact if_pos ((hp s rfl).2 c (by rw [hsplit]; simp))

/-- An authority is read as what it is. -/
theorem read_authority {a : Authority} (ha : a.Read) :
    ∃ q, a.text.foldlM next (start a.userinfo.isSome) = some q ∧ q.authority = some a := by
  obtain ⟨q, hq, hauthority⟩ := read_port a.userinfo ha.host ha.port
  refine ⟨q, ?_, hauthority⟩
  rw [Authority.text, Lib.scan_append (Lib.scan_append (read_userinfo ha.userinfo) |>.trans (read_host a.userinfo ha.host)), hq]

/-! ## `http_parse_host` -/

/-- The scan starts as the grammar does. -/
theorem start_scan {off : Nat} {b : HttpParserUrl} (hb : b.userinfo = none) (foundAt : Bool) (len : Nat) :
    (⟨if foundAt then .userinfoStart else .hostStart, off, { b with host := some { (⟨off, len⟩ : Span) with len := 0 } }⟩ : HostScan) =
      (start foundAt).scan off b := by
  cases foundAt <;> simp [start, scan, state, text, fields, hostAt, userinfoText, fieldAt, hb]

/-- `http_parse_host` takes the authorities, and gives their fields. -/
theorem httpParseHost_iff {buf : Str} {b u : HttpParserUrl} {h : Span} {foundAt : Bool} (hport : b.port = none)
    (huser : b.userinfo = none) :
    httpParseHost buf b h foundAt = some u ↔
      ∃ a : Authority, a.Read ∧ a.text = (buf.drop h.off).take h.len ∧ a.userinfo.isSome = foundAt ∧ a.fields h.off b = u := by
  have hscan : ((buf.drop h.off).take h.len).foldlM hostStep
      ⟨if foundAt then .userinfoStart else .hostStart, h.off, { b with host := some { h with len := 0 } }⟩ =
      (((buf.drop h.off).take h.len).foldlM next (start foundAt)).map (scan h.off b) := by
    rw [start_scan huser foundAt h.len]
    exact Lib.scan_simulates (P := fun _ => True) (fun _ _ _ _ _ => trivial) (fun p c _ => scan_next hport p c) trivial _
  have hstart : (start foundAt).Ok ∧ (start foundAt).hasUserinfo = foundAt ∧ (start foundAt).text = [] := by
    cases foundAt <;> simp [start, Ok, UserinfoOk, hasUserinfo, text, userinfoText]
  unfold httpParseHost
  dsimp only
  rw [hscan]
  constructor
  · intro heq
    cases hread : ((buf.drop h.off).take h.len).foldlM next (start foundAt) with
    | none =>
      rw [hread] at heq
      cases heq
    | some p =>
      rw [hread] at heq
      dsimp only [Option.map_some] at heq
      have hkept := Lib.scan_keeps (P := fun p => p.Ok ∧ p.hasUserinfo = foundAt)
        (fun p c q hp hq => ⟨(ok_next p c q hp.1 hq).1, (ok_next p c q hp.1 hq).2.trans hp.2⟩) ⟨hstart.1, hstart.2.1⟩ hread
      have htext := Lib.scan_text text_next hread
      rw [hstart.2.2, List.nil_append] at htext
      split at heq
      · cases heq
      · rename_i hfinished
        have hsome : p.authority.isNone ≠ true := by
          rw [← unfinished_eq]
          exact hfinished
        obtain ⟨a, ha⟩ : ∃ a, p.authority = some a := by
          cases hp : p.authority with
          | none => exact absurd (by rw [hp]; rfl) hsome
          | some a => exact ⟨a, rfl⟩
        obtain ⟨hok, hsame, huserinfo, hfields⟩ := authority_read hport hkept.1 ha
        exact ⟨a, hok, hsame.trans htext, huserinfo.trans hkept.2, hfields.trans (Option.some.inj heq)⟩
  · rintro ⟨a, ha, htext, rfl, rfl⟩
    obtain ⟨q, hq, hauthority⟩ := read_authority ha
    have hok := Lib.scan_keeps (P := Ok) (fun p c q hp hq => (ok_next p c q hp hq).1) hstart.1 hq
    obtain ⟨_, _, _, hfields⟩ := authority_read hport hok hauthority
    rw [← htext, hq, hfields]
    dsimp only [Option.map_some]
    have hfinished : q.state.unfinished = false := by
      rw [unfinished_eq, hauthority]
      rfl
    show (if q.state.unfinished = true then none else some (q.fields h.off b)) = some (q.fields h.off b)
    rw [hfinished]
    rfl

/-- Two authorities with one text are one. -/
theorem authority_unique {a a' : Authority} (ha : a.Read) (ha' : a'.Read) (hat : a.userinfo.isSome = a'.userinfo.isSome)
    (h : a.text = a'.text) : a = a' := by
  obtain ⟨q, hq, hauthority⟩ := read_authority ha
  obtain ⟨q', hq', hauthority'⟩ := read_authority ha'
  rw [h, hat, hq'] at hq
  obtain rfl := Option.some.inj hq
  exact Option.some.inj (hauthority.symm.trans hauthority')

end HostPrefix

end QingStor
