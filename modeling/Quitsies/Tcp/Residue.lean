import Mathlib.Data.List.DropRight
import Quitsies.Tcp.Pipeline

/-!
# What a request leaves behind

A request is answered at the byte that completes it, which is not always the
last one the client sends for it. The rest is dropped only if it arrives in the
same read. The condition under which nothing is left is worked out here from the
bytes alone: what the parser buffers is a function of the bytes read so far.
-/

namespace Quitsies.Tcp

open Text Interaction Db WellFormed

/-! ## The buffer between two reads -/

/-- The states in which the buffer holds the token being read. -/
def StatusType.Tokenizing (status : StatusType) : Prop :=
  status ≠ .data ∧ status ≠ .quitting ∧ status ≠ .finished

/-- The other states are left by no byte that the loop goes on after. -/
theorem onByte_absorbed {r r' : Request} {c : UInt8} (h : onByte r c = .next r')
    (hr : ¬ r.status.Tokenizing) : r'.status = r.status := by
  unfold onByte at h
  split at h
  · split at h
    · cases h; rfl
    · cases h
  · next hdata =>
    split at h
    · have hs : r.status = .quitting ∨ r.status = .finished := by
        by_contra hn
        exact hr ⟨hdata, fun he => hn (.inl he), fun he => hn (.inr he)⟩
      rcases hs with hs | hs <;> simp only [onWhiteSpace, hs] at h <;> cases h <;> rfl
    · cases h; rfl

theorem scan_absorbed {r r' : Request} {p : Bytes} (h : scan r p = some r')
    (hr : ¬ r.status.Tokenizing) : r'.status = r.status := by
  induction p generalizing r with
  | nil => cases h; rfl
  | cons c p ih =>
    simp only [scan] at h
    cases hc : onByte r c with
    | next r₁ =>
      have hs := onByte_absorbed hc hr
      have h' := ih (r := r₁) (by simpa only [hc] using h) (by rwa [hs])
      exact h'.trans hs
    | respond r₁ => simp only [hc] at h; cases h
    | throw r₁ what => simp only [hc] at h; cases h

theorem onWhiteSpace_buffer {r r' : Request} (h : onWhiteSpace r = .next r')
    (hr : r'.status.Tokenizing) : r'.buffer = [] := by
  obtain ⟨hdata, hquit, hfin⟩ := hr
  unfold onWhiteSpace at h
  split at h
  · simp only at h
    split at h
    · cases h
    · split at h <;> cases h
      rfl
  · obtain ⟨rfl, -⟩ := pushKey_next h; rfl
  · obtain ⟨rfl, -⟩ := pushKey_next h; rfl
  · split at h <;> cases h
    rfl
  · split at h <;> cases h
    rfl
  · split at h <;> cases h
    rfl
  · split at h
    · cases h; rfl
    · split at h <;> cases h
      exact absurd rfl hdata
  · split at h
    · cases h
    · obtain ⟨rfl, -⟩ := pushKey_next h; rfl
  · split at h
    · cases h
    · obtain ⟨rfl, -⟩ := pushKey_next h; rfl
  · next hs => cases h; exact absurd hs hdata
  · next hs => cases h; exact absurd hs hfin
  · next hs => cases h; exact absurd hs hquit

def plainByte (c : UInt8) : Bool := !isWhiteSpace c

/-- Outside the payload the buffer is what has been read since the last white space. -/
theorem scan_token {r r' : Request} {p : Bytes} (h : scan r p = some r') (hb : r.buffer = [])
    (ht : r'.status.Tokenizing) : r'.buffer = p.rtakeWhile plainByte := by
  induction p using List.reverseRecOn generalizing r' with
  | nil =>
    cases h
    exact hb
  | append_singleton p c ih =>
    rw [scan_append] at h
    obtain ⟨r₁, h₁, hc⟩ := Option.bind_eq_some_iff.mp h
    have hnext : onByte r₁ c = .next r' := by
      simp only [scan] at hc
      cases he : onByte r₁ c with
      | next r₂ => simp only [he, Option.some.injEq] at hc; rw [hc]
      | respond r₂ => simp only [he] at hc; cases hc
      | throw r₂ what => simp only [he] at hc; cases hc
    have ht₁ : r₁.status.Tokenizing := by
      by_contra hn
      rw [onByte_absorbed hnext hn] at ht
      exact hn ht
    cases hw : isWhiteSpace c with
    | true =>
      rw [onByte_whiteSpace ht₁.1 hw] at hnext
      rw [onWhiteSpace_buffer hnext ht, List.rtakeWhile_concat]
      simp [plainByte, hw]
    | false =>
      rw [onByte_token ht₁.1 hw] at hnext
      cases hnext
      rw [List.rtakeWhile_concat, ih h₁ ht₁]
      simp [plainByte, hw]

theorem pushKey_ne_respond (r q : Request) (status : StatusType) :
    pushKey r status ≠ .respond q := by
  intro h
  unfold pushKey at h
  split at h <;> cases h

theorem onWhiteSpace_respond {r q : Request} (h : onWhiteSpace r = .respond q) :
    q.noReply = r.noReply ∧ r.status ≠ .quitting ∧ r.status ≠ .finished := by
  have hstatus : r.status ≠ .quitting ∧ r.status ≠ .finished := by
    constructor <;> intro hs <;> simp only [onWhiteSpace, hs] at h <;> cases h
  refine ⟨?_, hstatus⟩
  unfold onWhiteSpace at h
  split at h
  · simp only at h
    split at h
    · cases h
    · split at h <;> cases h
      rfl
  · exact absurd h (pushKey_ne_respond _ _ _)
  · exact absurd h (pushKey_ne_respond _ _ _)
  · split at h <;> cases h
  · split at h <;> cases h
  · split at h <;> cases h
  · split at h
    · cases h
    · split at h <;> cases h
      rfl
  · split at h
    · cases h; rfl
    · exact absurd h (pushKey_ne_respond _ _ _)
  · split at h
    · cases h; rfl
    · exact absurd h (pushKey_ne_respond _ _ _)
  · cases h
  · cases h
  · cases h

/-- The states from which the parser answers. -/
theorem onByte_respond {r q : Request} {c : UInt8} (h : onByte r c = .respond q) :
    q.noReply = r.noReply ∧ r.status ≠ .quitting ∧ r.status ≠ .finished ∧
      (r.status = .data → q.status = .data) := by
  unfold onByte at h
  split at h
  · next hs =>
    split at h
    · cases h
    · cases h
      refine ⟨rfl, ?_, ?_, id⟩ <;> rw [hs] <;> decide
  · next hs =>
    split at h
    · obtain ⟨hn, hq, hf⟩ := onWhiteSpace_respond h
      exact ⟨hn, hq, hf, fun hd => absurd hd hs⟩
    · cases h

section Pending

variable (db : Bool) (m : Nat) (g : CommandType)

/-- How many bytes the parser has in its buffer after the bytes `p` of a request:
the payload so far or, before it, the token so far. -/
def WellFormed.pending (w : WellFormed) (p : Bytes) : Nat :=
  match w with
  | storage kind key flags exptime noreply payload =>
    let header := storageLine kind key flags exptime noreply payload.bytes.length ++ crlf
    if header.length ≤ p.length then p.length - header.length
    else (p.rtakeWhile plainByte).length
  | _ => (p.rtakeWhile plainByte).length

/-- Where a request is not yet complete the parser is neither quitting nor done,
and keeps what the client has said about replies. -/
structure Incomplete (w : WellFormed) (r : Request) : Prop where
  finished : r.status ≠ .finished
  quitting : r.status ≠ .quitting
  noReply : w.noreply = false → r.noReply = false

theorem scan_incomplete (w : WellFormed) {p : Bytes} (hp : p <+: w.body) :
    ∃ r, scan (.fresh db m g) p = some r ∧ Incomplete w r := by
  obtain ⟨r₁, hbody, hlast⟩ := scan_body db m g w
  obtain ⟨hn, hq, hf, -⟩ := onByte_respond hlast
  obtain ⟨rest, hcut⟩ := hp
  rw [← hcut, scan_append] at hbody
  obtain ⟨r, hr, hrest⟩ := Option.bind_eq_some_iff.mp hbody
  refine ⟨r, hr, ?_, ?_, ?_⟩
  · intro hs
    have habsorbed := scan_absorbed hrest fun ht => ht.2.2 hs
    exact hf (habsorbed.trans hs)
  · intro hs
    have habsorbed := scan_absorbed hrest fun ht => ht.2.1 hs
    exact hq (habsorbed.trans hs)
  · intro hw
    by_contra hne
    have htrue := (scan_continues hrest).noReply (Bool.eq_true_of_not_eq_false hne)
    have hfalse : r₁.noReply = false := hn.symm.trans hw
    rw [htrue] at hfalse
    cases hfalse

/-- The token being read, before a point at which a token is still being read. -/
theorem scan_token_before {p q : Bytes} (hp : p <+: q) {r r₁ : Request}
    (hq : scan (.fresh db m g) q = some r₁) (ht : r₁.status.Tokenizing)
    (h : scan (.fresh db m g) p = some r) : r.buffer = p.rtakeWhile plainByte := by
  obtain ⟨rest, rfl⟩ := hp
  rw [scan_trans h] at hq
  refine scan_token h rfl ?_
  by_contra hn
  rw [scan_absorbed hq hn] at ht
  exact hn ht

theorem scan_pending (w : WellFormed) {p : Bytes} (hp : p <+: w.body) {r : Request}
    (h : scan (.fresh db m g) p = some r) : r.buffer.length = w.pending p := by
  obtain ⟨r₁, hbody, hlast⟩ := scan_body db m g w
  obtain ⟨-, hquit, hfin, hdata⟩ := onByte_respond hlast
  have htoken (hne : w.lastStatus ≠ .data) : r.buffer = p.rtakeWhile plainByte :=
    scan_token_before db m g hp hbody ⟨fun hs => hne (hdata hs), hquit, hfin⟩ h
  cases w with
  | storage kind key flags exptime noreply payload =>
    let n := payload.bytes.length
    let line := storageLine kind key flags exptime noreply n
    have hheader : (line ++ crlf).length = line.length + 2 := by simp [crlf]
    simp only [WellFormed.pending]
    split
    · next hle =>
      have hle' : line.length + 2 ≤ p.length := hheader ▸ hle
      have hpayload : payload.bytes ≠ [] := by
        intro he
        have hlen := hp.length_le
        simp only [body, if_pos he, List.length_append, List.length_singleton] at hlen
        simp only [line, n] at hle'
        omega
      have hbody' : (storage kind key flags exptime noreply payload).body =
          (line ++ crlf) ++ payload.bytes := by simp [body, hpayload, line, n]
      rw [hbody'] at hp
      obtain ⟨d, rfl⟩ := List.prefix_of_prefix_length_le (List.prefix_append ..) hp hle
      have hd : d.length ≤ n := by
        have hlen := hp.length_le
        simp only [List.length_append] at hlen
        omega
      have hscan := scan_storageHeader db m g kind key flags exptime noreply payload.short
        (List.length_pos_of_ne_nil hpayload)
      rw [scan_trans hscan, scan_payload rfl hd] at h
      cases h
      have hlen : (line ++ crlf ++ d).length = (line ++ crlf).length + d.length :=
        List.length_append
      show d.length = (line ++ crlf ++ d).length - (line ++ crlf).length
      omega
    · next hlt =>
      have hlt' : ¬ line.length + 2 ≤ p.length := hheader ▸ hlt
      have hcr : line ++ [13] <+: (storage kind key flags exptime noreply payload).body := by
        refine ⟨if payload.bytes = [] then [] else 10 :: payload.bytes, ?_⟩
        by_cases he : payload.bytes = [] <;> simp [body, he, line, n, crlf]
      have hp' : p <+: line ++ [13] := by
        refine List.prefix_of_prefix_length_le hp hcr ?_
        rw [List.length_append, List.length_singleton]
        omega
      have hline := scan_storageLine db m g kind key flags exptime noreply payload.short
      have hnorep : StatusType.Tokenizing .norep := ⟨by decide, by decide, by decide⟩
      rw [scan_token_before db m g hp' hline hnorep h]
  | delete key noreply => rw [htoken (by simp [lastStatus])]; rfl
  | retrieval kind first more => rw [htoken (by simp [lastStatus])]; rfl
  | ping => rw [htoken (by simp [lastStatus])]; rfl

end Pending

/-! ## A request cut into reads -/

/-- A request that wants a response, with its bytes cut into reads. -/
structure Delivery where
  request : WellFormed
  reply : request.noreply = false
  reads : List Bytes
  nonempty : ∀ d ∈ reads, d ≠ []
  whole : reads.flatten = request.encode

/-- After the bytes `p`, every read but the last leaves the request incomplete and
below the byte limit. -/
def CompletedByLast (m : Nat) (w : WellFormed) (p : Bytes) : List Bytes → Prop
  | [] => True
  | d :: reads =>
    (reads ≠ [] → (p ++ d).length < w.complete.length ∧
      ¬ (0 < m ∧ m ≤ d.length + w.pending p)) ∧ CompletedByLast m w (p ++ d) reads

/-- One response was written for one finished request, and the parser is back at
the start. -/
structure OneResponse (s s' : Session) : Prop where
  written : s'.written.length = s.written.length + 1
  finished : s'.finished.length = s.finished.length + 1
  clean : s'.connection.request.Clean

section Reads

variable {db : Bool} {m : Nat} {g : CommandType} {w : WellFormed}

/-- A running connection that has read the bytes `p` of a request. -/
structure Midway (db : Bool) (m : Nat) (g : CommandType) (w : WellFormed) (p : Bytes)
    (s : Session) : Prop where
  running : s.stopped = false
  scanned : scan (.fresh db m g) p = some s.connection.request
  short : p.length < w.complete.length

theorem body_length (w : WellFormed) : w.complete.length = w.body.length + 1 := by
  rw [complete_eq, List.length_append, List.length_singleton]

/-- An incomplete part of a request is a part of what comes before its last byte. -/
theorem prefix_body {p rest : Bytes} (h : p ++ rest = w.encode)
    (hp : p.length < w.complete.length) : p <+: w.body := by
  have hbody : w.body <+: w.encode := ⟨w.last :: w.leftover, by simp [encode_eq, complete_eq]⟩
  have hlen := body_length w
  exact List.prefix_of_prefix_length_le ⟨rest, h⟩ hbody (by omega)

theorem Midway.exceeds {p : Bytes} {s : Session} (h : Midway db m g w p s) {rest : Bytes}
    (hrest : p ++ rest = w.encode) (n : Nat) :
    s.connection.request.exceeds n = true ↔ 0 < m ∧ m ≤ n + w.pending p := by
  have hpending := scan_pending db m g w (prefix_body hrest h.short) h.scanned
  have hmax : s.connection.request.maxBytes = m := (scan_continues h.scanned).config.2
  simp [Request.exceeds, hpending, hmax]

/-- An answered request that wanted a response. -/
theorem Session.Answered.one_response {s s' : Session} {q : Request} (h : s.Answered s' q)
    (hs : s.stopped = false) (hq : q.db = db ∧ q.maxBytes = m) (hn : q.noReply = false) :
    OneResponse s s' ∧ s'.Ready db m := by
  refine ⟨⟨?_, ?_, ?_⟩, h.ready hs hq⟩
  · rw [h.written, hn, List.length_append]
    rfl
  · rw [h.finished, List.length_append]
    rfl
  · rw [h.connection]
    exact clean_reset q

/-- A read that completes the request or goes over the limit. -/
theorem read_finishes {p d rest : Bytes} {s : Session} (h : Midway db m g w p s)
    (hw : w.noreply = false) (hrest : p ++ (d ++ rest) = w.encode)
    (hd : w.complete.length ≤ (p ++ d).length ∨ 0 < m ∧ m ≤ d.length + w.pending p) :
    (s.read d).Returns fun s' => OneResponse s s' ∧ s'.Ready db m := by
  obtain ⟨r, hr, hincomplete⟩ := scan_incomplete db m g w (prefix_body hrest h.short)
  obtain rfl : s.connection.request = r := Option.some.inj (h.scanned.symm.trans hr)
  cases hx : s.connection.request.exceeds d.length with
  | true =>
    rw [s.read_exceeded hx]
    let q := s.connection.request.rejected (text "request size exceeded max bytes")
    have ha : s.Answered (s.settle q) q := s.settle_finished rfl
    exact ha.one_response h.running (scan_continues hr).config (hincomplete.noReply hw)
  | false =>
    have hcomplete : w.complete.length ≤ (p ++ d).length := by
      apply hd.resolve_right
      intro hm
      rw [(h.exceeds hrest d.length).mpr hm] at hx
      cases hx
    have hprefix : w.complete <+: p ++ d := by
      refine List.prefix_of_prefix_length_le ⟨w.leftover, (encode_eq w).symm⟩ ?_ hcomplete
      exact ⟨rest, by rw [← hrest, List.append_assoc]⟩
    obtain ⟨beyond, hbeyond⟩ := hprefix
    have hloop : loop s.connection.request d = prepareResponse (w.parsed db m) := by
      rw [← loop_of_scan h.scanned, ← hbeyond, loop_rest]
    refine (s.read_answered hx hloop).mono fun s' ⟨response, ha⟩ => ?_
    exact ha.one_response h.running ⟨rfl, rfl⟩ hw

/-- A read that leaves the request incomplete. -/
theorem read_continues {p d rest : Bytes} {s : Session} (h : Midway db m g w p s)
    (hrest : p ++ (d ++ rest) = w.encode) (hd : (p ++ d).length < w.complete.length)
    (hm : ¬ (0 < m ∧ m ≤ d.length + w.pending p)) :
    ∃ s', s.read d = .done s' ∧ Midway db m g w (p ++ d) s' ∧
      s'.written = s.written ∧ s'.finished = s.finished := by
  rw [← List.append_assoc] at hrest
  obtain ⟨r, hr, hincomplete⟩ := scan_incomplete db m g w (prefix_body hrest hd)
  have hx : s.connection.request.exceeds d.length = false := by
    rw [List.append_assoc] at hrest
    exact Bool.eq_false_of_not_eq_true fun he => hm ((h.exceeds hrest d.length).mp he)
  have hscan : scan s.connection.request d = some r := by rw [← scan_trans h.scanned, hr]
  have ha := s.settle_reading hincomplete.finished
  refine ⟨s.settle r, s.read_scanned hx hscan, ⟨?_, ?_, hd⟩, ha.written, ha.finished⟩
  · rw [ha.stopped, h.running]
    simp [hincomplete.quitting]
  · rw [hr, ha.connection]

theorem serve_completed {reads : List Bytes} {p : Bytes} {s : Session} (h : Midway db m g w p s)
    (hw : w.noreply = false) (hflat : p ++ reads.flatten = w.encode)
    (hlast : CompletedByLast m w p reads) :
    (s.serve reads).Returns fun s' => OneResponse s s' ∧ s'.Ready db m := by
  induction reads generalizing p s with
  | nil =>
    have hlen := congrArg List.length hflat
    have hshort := h.short
    simp only [List.flatten_nil, List.append_nil, encode_eq, List.length_append] at hlen
    omega
  | cons d reads ih =>
    rw [s.serve_cons h.running]
    rw [List.flatten_cons] at hflat
    by_cases hreads : reads = []
    · subst hreads
      have hd : w.complete.length ≤ (p ++ d).length := by
        have hlen := congrArg List.length hflat
        simp only [List.flatten_nil, List.append_nil, encode_eq, List.length_append] at hlen
        simp only [List.length_append]
        omega
      apply (read_finishes h hw hflat (.inl hd)).bind
      intro s' hs'
      exact hs'
    · obtain ⟨hd, hm⟩ := hlast.1 hreads
      obtain ⟨s₁, hread, hmid, hwritten, hfinished⟩ := read_continues h hflat hd hm
      rw [hread, Prog.done_bind]
      refine (ih hmid (by rw [List.append_assoc, hflat]) hlast.2).mono fun s' ⟨h₁, hready⟩ => ?_
      exact ⟨⟨by rw [h₁.written, hwritten], by rw [h₁.finished, hfinished], h₁.clean⟩, hready⟩

theorem serve_not_completed {reads : List Bytes} {p : Bytes} {s : Session}
    (h : Midway db m g w p s) (hw : w.noreply = false) (hne : ∀ d ∈ reads, d ≠ [])
    (hflat : p ++ reads.flatten = w.encode) (hlast : ¬ CompletedByLast m w p reads) :
    (s.serve reads).Returns fun s' => ¬ OneResponse s s' := by
  induction reads generalizing p s with
  | nil => exact absurd trivial hlast
  | cons d reads ih =>
    rw [s.serve_cons h.running]
    rw [List.flatten_cons] at hflat
    have hne' : ∀ d ∈ reads, d ≠ [] := fun d' hd' => hne d' (by simp [hd'])
    by_cases hearly : reads ≠ [] →
        (p ++ d).length < w.complete.length ∧ ¬ (0 < m ∧ m ≤ d.length + w.pending p)
    · have hreads : reads ≠ [] := by
        rintro rfl
        exact hlast ⟨hearly, trivial⟩
      obtain ⟨hd, hm⟩ := hearly hreads
      obtain ⟨s₁, hread, hmid, hwritten, hfinished⟩ := read_continues h hflat hd hm
      rw [hread, Prog.done_bind]
      have hrest := ih hmid hne' (by rw [List.append_assoc, hflat]) fun hl => hlast ⟨hearly, hl⟩
      refine hrest.mono fun s' hs' h₁ => hs' ?_
      exact ⟨by rw [h₁.written, hwritten], by rw [h₁.finished, hfinished], h₁.clean⟩
    · obtain ⟨hreads, hd⟩ := Classical.not_imp.mp hearly
      have hfin : w.complete.length ≤ (p ++ d).length ∨ 0 < m ∧ m ≤ d.length + w.pending p := by
        by_contra hn
        exact hd ⟨by omega, fun hm => hn (.inr hm)⟩
      refine (read_finishes h hw hflat hfin).bind fun s₁ ⟨h₁, hready⟩ => ?_
      apply (s₁.serve_touched hne' (.inl ⟨hready.running, hreads⟩)).mono
      intro s' ht hone
      have hcount := hone.finished
      have hcount₁ := h₁.finished
      rcases ht with hlt | hdirty
      · omega
      · exact hdirty hone.clean

end Reads

/-- A running connection about to read a request is midway through none of it. -/
theorem Session.Ready.midway {db : Bool} {m : Nat} {s : Session} (h : s.Ready db m)
    (w : WellFormed) : ∃ g, Midway db m g w [] s := by
  obtain ⟨g, hg⟩ := h.request
  exact ⟨g, h.running, by rw [hg]; rfl, by rw [body_length]; exact Nat.succ_pos _⟩

/-- For one request the condition is exact. -/
theorem serve_one_response_iff {db : Bool} {m : Nat} {s : Session} (h : s.Ready db m)
    (d : Delivery) :
    (s.serve d.reads).Returns (OneResponse s) ↔ CompletedByLast m d.request [] d.reads := by
  obtain ⟨g, hmid⟩ := h.midway d.request
  constructor
  · intro hone
    by_contra hlast
    exact (serve_not_completed hmid d.reply d.nonempty d.whole hlast).not_of_not hone
  · intro hlast
    exact (serve_completed hmid d.reply d.whole hlast).mono fun _ hs => hs.1

/-- Under it a whole conversation keeps requests and responses in step. -/
theorem serve_conversation {db : Bool} {m : Nat} {s : Session} (h : s.Ready db m)
    {ds : List Delivery} (hds : ∀ d ∈ ds, CompletedByLast m d.request [] d.reads) :
    (s.serve (ds.flatMap Delivery.reads)).Returns fun s' =>
      s'.written.length = s.written.length + ds.length ∧ s'.Ready db m := by
  induction ds generalizing s with
  | nil => exact ⟨rfl, h⟩
  | cons d ds ih =>
    obtain ⟨g, hmid⟩ := h.midway d.request
    have hone := serve_completed hmid d.reply d.whole (hds d (by simp))
    rw [List.flatMap_cons, s.serve_append]
    refine hone.bind fun s₁ ⟨h₁, hready⟩ => ?_
    refine (ih hready fun d' hd' => hds d' (by simp [hd'])).mono fun s' ⟨hlen, hready'⟩ => ?_
    refine ⟨?_, hready'⟩
    rw [hlen, h₁.written, List.length_cons]
    omega

/-- **One request, one response, no residue**: exactly when the read that completes
a request is the last one to bring bytes of it. -/
theorem one_response_iff_completed_by_last {db : Bool} {m : Nat} {s : Session}
    (h : s.Ready db m) :
    (∀ d : Delivery, (s.serve d.reads).Returns (OneResponse s) ↔
      CompletedByLast m d.request [] d.reads) ∧
    (∀ ds : List Delivery, (∀ d ∈ ds, CompletedByLast m d.request [] d.reads) →
      (s.serve (ds.flatMap Delivery.reads)).Returns fun s' =>
        s'.written.length = s.written.length + ds.length ∧ s'.connection.request.Clean) := by
  refine ⟨serve_one_response_iff h, fun ds hds => ?_⟩
  refine (serve_conversation h hds).mono fun s' ⟨hlen, hready⟩ => ⟨hlen, ?_⟩
  obtain ⟨command, hr⟩ := hready.request
  rw [hr]
  exact ⟨rfl, rfl, rfl⟩

/-- A ping whose LF comes in a read of its own. -/
def splitPing : Delivery where
  request := .ping
  reply := rfl
  reads := [text "ping\r", text "\n"]
  nonempty := by decide
  whole := by decide

theorem one_response_splitPing :
    let s := Session.accepted ⟨.fresh true 0 .none, 0, 0⟩
    ((s.serve splitPing.reads).Returns (OneResponse s) ↔
      CompletedByLast 0 splitPing.request [] splitPing.reads) :=
  (@one_response_iff_completed_by_last true 0 _ (ready_accepted rfl)).1 splitPing

/-- The LF is answered as a request of its own. -/
theorem splitPing_answered_twice :
    let s := Session.accepted ⟨.fresh true 0 .none, 0, 0⟩
    ((s.serve splitPing.reads).runWith mapStore fun _ => none).1.written =
        [pong, clientErrorLine (text "unsupported command")] ∧
      ¬ (s.serve splitPing.reads).Returns (OneResponse s) := by
  intro s
  have hwritten : ((s.serve splitPing.reads).runWith mapStore fun _ => none).1.written =
      [pong, clientErrorLine (text "unsupported command")] := by decide
  refine ⟨hwritten, fun h => ?_⟩
  have hone := (h.of_performs (Prog.performs_runWith mapStore _ fun _ => none)).written
  rw [hwritten] at hone
  cases hone

end Quitsies.Tcp
