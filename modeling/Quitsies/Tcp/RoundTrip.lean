import Quitsies.Tcp.Feed
import Quitsies.Tcp.Wire

/-!
# Parsing undoes encoding

The parser is followed word by word through a well-formed request: a word is
collected in the buffer, and the white space after it moves the state machine
on. The payload is then counted down without being looked at.
-/

namespace Quitsies.Tcp

open Text Interaction Db WellFormed

/-! ## Words and payloads -/

theorem isSpace_of_isWhiteSpace {c : UInt8} (h : isWhiteSpace c = true) : isSpace c = true := by
  simp only [isWhiteSpace, Bool.or_eq_true, beq_iff_eq] at h
  rcases h with ((((rfl | rfl) | rfl) | rfl) | rfl) | rfl <;> decide

theorem plain_decimalInt (v : Int) : ∀ c ∈ decimalInt v, isWhiteSpace c = false := by
  intro c hc
  by_contra h
  have hs := isSpace_of_isWhiteSpace (Bool.eq_true_of_not_eq_false h)
  rw [not_isSpace_of_mem_decimalInt c hc] at hs
  cases hs

/-- A word goes into the buffer. -/
theorem scan_word {r : Request} (h : r.status ≠ .data) {word : Bytes}
    (hw : ∀ c ∈ word, isWhiteSpace c = false) :
    scan r word = some { r with buffer := r.buffer ++ word } := by
  induction word generalizing r with
  | nil => simp [scan]
  | cons c word ih =>
    have h' : ({ r with buffer := r.buffer ++ [c] } : Request).status ≠ .data := h
    simp only [scan, onByte_token h (hw c (by simp))]
    rw [ih h' fun c' hc' => hw c' (by simp [hc'])]
    simp

/-- A word and the white space after it, with an empty buffer before it. -/
theorem scan_word_end {r r' : Request} (h : r.status ≠ .data) (hb : r.buffer = []) {word : Bytes}
    (hw : ∀ c ∈ word, isWhiteSpace c = false) {c : UInt8} (hc : isWhiteSpace c = true)
    (he : onWhiteSpace { r with buffer := word } = .next r') :
    scan r (word ++ [c]) = some r' := by
  have hr : ({ r with buffer := word } : Request).status ≠ .data := h
  rw [scan_append, scan_word h hw, hb, Option.bind_some, List.nil_append]
  simp only [scan, onByte_whiteSpace hr hc, he]

/-- Payload bytes are counted down, whatever they are. -/
theorem scan_payload {r : Request} (h : r.status = .data) {d : Bytes}
    (hd : d.length ≤ r.remaining) :
    scan r d = some { r with remaining := r.remaining - d.length, buffer := r.buffer ++ d } := by
  induction d generalizing r with
  | nil => simp [scan]
  | cons c d ih =>
    simp only [List.length_cons] at hd
    let r' : Request := { r with remaining := r.remaining - 1, buffer := r.buffer ++ [c] }
    have hr' : d.length ≤ r'.remaining := by simp only [r']; omega
    have hn : r.remaining - 1 - d.length = r.remaining - (d.length + 1) := by omega
    simp only [scan, onByte_payload h (by omega) c]
    rw [ih (r := r') h hr']
    simp only [r', hn, List.length_cons, List.append_assoc, List.singleton_append]

theorem scan_trans {r r₁ : Request} {a : Bytes} (h : scan r a = some r₁) (b : Bytes) :
    scan r (a ++ b) = scan r₁ b := by
  rw [scan_append, h, Option.bind_some]

/-! ## The lines -/

section Lines

variable (db : Bool) (m : Nat) (g : CommandType)

theorem storageKind_parse (kind : StorageKind) :
    (∀ c ∈ kind.name, isWhiteSpace c = false) ∧ commandFromStr kind.name = kind.command ∧
      statusFromCommand kind.command = .ok .storageKey := by
  cases kind <;> exact ⟨plain_of_all (by decide), by decide, by decide⟩

theorem retrievalKind_parse (kind : RetrievalKind) :
    (∀ c ∈ kind.name, isWhiteSpace c = false) ∧ commandFromStr kind.name = kind.command ∧
      statusFromCommand kind.command = .ok .retrievalKey := by
  cases kind <;> exact ⟨plain_of_all (by decide), by decide, by decide⟩

theorem scan_command {word : Bytes} {command : CommandType} {status : StatusType}
    (hw : ∀ c ∈ word, isWhiteSpace c = false) (hc : commandFromStr word = command)
    (hs : statusFromCommand command = .ok status) (hf : status ≠ .finished) :
    scan (.fresh db m g) (word ++ space) =
      some { Request.fresh db m g with command := command, status := status } := by
  refine scan_word_end (by simp [Request.fresh]) rfl hw (by decide) ?_
  simp only [Request.fresh, onWhiteSpace, hc, hs, if_neg hf]

/-- The bytes field of a payload is read back as its length. -/
theorem sizeOfInt_length {n : Nat} (h : n ≤ 2 ^ 31 - 1) : sizeOfInt (n : Int) = n := by
  unfold sizeOfInt
  omega

/-- A request in the middle of a storage line. -/
def storageAt (kind : StorageKind) (status : StatusType) (keys : List Bytes) (flags exptime : Int)
    (remaining : Nat) (noreply : Bool) : Request :=
  { Request.fresh db m g with
    command := kind.command
    status := status
    keys := keys
    flags := flags
    expTime := exptime
    remaining := remaining
    noReply := noreply }

/-- The name of the command and the key. -/
theorem scan_storageKey (kind : StorageKind) (key : Key) :
    scan (.fresh db m g) (kind.name ++ space ++ (key.bytes ++ space)) =
      some (storageAt db m g kind .flags [key.bytes] 0 0 0 false) := by
  obtain ⟨hw, hc, hs⟩ := storageKind_parse kind
  rw [scan_trans (scan_command db m g hw hc hs (by decide))]
  refine scan_word_end (by simp) rfl key.plain (by decide) ?_
  simp only [onWhiteSpace, pushKey, List.length_eq_zero_iff, if_neg key.nonempty]
  rfl

theorem scan_flagsField (kind : StorageKind) (keys : List Bytes) (flags : Int32Value) :
    scan (storageAt db m g kind .flags keys 0 0 0 false) (decimalInt flags.val ++ space) =
      some (storageAt db m g kind .exptime keys flags.val 0 0 false) := by
  refine scan_word_end (by simp [storageAt]) rfl (plain_decimalInt _) (by decide) ?_
  simp only [storageAt, onWhiteSpace, stoi_decimalInt flags.lower flags.upper]
  rfl

theorem scan_exptimeField (kind : StorageKind) (keys : List Bytes) (flags : Int)
    (exptime : Int32Value) :
    scan (storageAt db m g kind .exptime keys flags 0 0 false) (decimalInt exptime.val ++ space) =
      some (storageAt db m g kind .nbytes keys flags exptime.val 0 false) := by
  refine scan_word_end (by simp [storageAt]) rfl (plain_decimalInt _) (by decide) ?_
  simp only [storageAt, onWhiteSpace, stoi_decimalInt exptime.lower exptime.upper]
  rfl

theorem scan_storageFields (kind : StorageKind) (key : Key) (flags exptime : Int32Value) :
    scan (.fresh db m g) (kind.name ++ space ++ (key.bytes ++ space) ++
        (decimalInt flags.val ++ space) ++ (decimalInt exptime.val ++ space)) =
      some (storageAt db m g kind .nbytes [key.bytes] flags.val exptime.val 0 false) := by
  have hkey := scan_storageKey db m g kind key
  have hflags := scan_flagsField db m g kind [key.bytes] flags
  have hexptime := scan_exptimeField db m g kind [key.bytes] flags.val exptime
  rw [scan_trans (scan_trans hkey _ |>.trans hflags), hexptime]

/-- The last field of a storage or deletion line, the flag word, if any, and the CR. -/
theorem scan_lastField {r r' : Request} (h : r.status ≠ .data) (hb : r.buffer = [])
    {word : Bytes} (hw : ∀ c ∈ word, isWhiteSpace c = false)
    (he : onWhiteSpace { r with buffer := word } = .next r') (hs : r'.status = .norep)
    (hb' : r'.buffer = []) (noreply : Bool) :
    scan r (word ++ noreplyWord noreply ++ [13]) =
      some { r' with noReply := r'.noReply || noreply } := by
  cases noreply with
  | false =>
    rw [Bool.or_false, noreplyWord, if_neg Bool.false_ne_true, List.append_nil]
    exact scan_word_end h hb hw (by decide) he
  | true =>
    have hcut : word ++ noreplyWord true ++ [13] = (word ++ [32]) ++ (text "noreply" ++ [13]) := by
      rw [List.append_assoc, List.append_assoc]
      rfl
    have hflag : ∀ c ∈ text "noreply", isWhiteSpace c = false := plain_of_all (by decide)
    rw [hcut, scan_trans (scan_word_end h hb hw (by decide) he), Bool.or_true]
    refine scan_word_end (by simp [hs]) hb' hflag (by decide) ?_
    simp only [onWhiteSpace, hs, ↓reduceIte]
    rw [← hb', ← hs]

theorem scan_storageLine (kind : StorageKind) (key : Key) (flags exptime : Int32Value)
    (noreply : Bool) {n : Nat} (hn : n ≤ 2 ^ 31 - 1) :
    scan (.fresh db m g) (storageLine kind key flags exptime noreply n ++ [13]) =
      some (storageAt db m g kind .norep [key.bytes] flags.val exptime.val n noreply) := by
  have hcut : storageLine kind key flags exptime noreply n ++ [13] =
      (kind.name ++ space ++ (key.bytes ++ space) ++ (decimalInt flags.val ++ space) ++
        (decimalInt exptime.val ++ space)) ++ (decimal n ++ noreplyWord noreply ++ [13]) := by
    simp only [storageLine, List.append_assoc]
  rw [hcut, scan_trans (scan_storageFields db m g kind key flags exptime)]
  let r := storageAt db m g kind .nbytes [key.bytes] flags.val exptime.val 0 false
  have hread : stoi (decimal n) = .ok (n : Int) := stoi_decimalInt (v := n) (by omega) (by omega)
  have hend : onWhiteSpace { r with buffer := decimal n } =
      .next (storageAt db m g kind .norep [key.bytes] flags.val exptime.val n false) := by
    simp only [r, storageAt, onWhiteSpace, hread, sizeOfInt_length hn]
    rfl
  have hr : r.status ≠ .data := by simp [r, storageAt]
  exact scan_lastField hr rfl (plain_decimalInt n) hend rfl rfl noreply

theorem scan_deleteLine (key : Key) (noreply : Bool) :
    scan (.fresh db m g) (text "delete" ++ space ++ key.bytes ++ noreplyWord noreply ++ [13]) =
      some { Request.fresh db m g with
        command := .delete, status := .norep, keys := [key.bytes], noReply := noreply } := by
  have h₁ : scan (.fresh db m g) (text "delete" ++ space) =
      some { Request.fresh db m g with command := .delete, status := .deleteKey } :=
    scan_command db m g (plain_of_all (by decide)) (by decide) rfl (by decide)
  have hcut : text "delete" ++ space ++ key.bytes ++ noreplyWord noreply ++ [13] =
      (text "delete" ++ space) ++ (key.bytes ++ noreplyWord noreply ++ [13]) := by
    simp only [List.append_assoc]
  rw [hcut, scan_trans h₁]
  let r : Request := { Request.fresh db m g with command := .delete, status := .deleteKey }
  have hr : r.status ≠ .data := by simp [r]
  have hend : onWhiteSpace { r with buffer := key.bytes } =
      .next { Request.fresh db m g with
        command := .delete, status := .norep, keys := [key.bytes] } := by
    simp only [r, onWhiteSpace, pushKey, List.length_eq_zero_iff, if_neg key.nonempty]
    rfl
  exact scan_lastField hr rfl key.plain hend rfl rfl noreply

/-- A key of a retrieval and the separator after it. -/
theorem scan_retrievalKey {r : Request} (hs : r.status = .retrievalKey) (hb : r.buffer = [])
    (key : Key) {c : UInt8} (hc : isWhiteSpace c = true) :
    scan r (key.bytes ++ [c]) = some { r with keys := r.keys ++ [key.bytes] } := by
  refine scan_word_end (by simp [hs]) hb key.plain hc ?_
  simp only [onWhiteSpace, hs, pushKey, List.length_eq_zero_iff, if_neg key.nonempty]
  rw [← hb, ← hs]

/-- The keys of a retrieval, each read up to the separator after it. -/
theorem scan_retrievalKeys {r : Request} (hs : r.status = .retrievalKey) (hb : r.buffer = [])
    (first : Key) (more : List Key) {c : UInt8} (hc : isWhiteSpace c = true) :
    scan r (first.bytes ++ more.flatMap (fun key => space ++ key.bytes) ++ [c]) =
      some { r with keys := r.keys ++ (first :: more).map Key.bytes } := by
  induction more generalizing r first with
  | nil =>
    rw [List.flatMap_nil, List.append_nil]
    exact scan_retrievalKey hs hb first hc
  | cons second more ih =>
    have hcut : first.bytes ++ (second :: more).flatMap (fun key => space ++ key.bytes) ++ [c] =
        (first.bytes ++ [32]) ++
          (second.bytes ++ more.flatMap (fun key => space ++ key.bytes) ++ [c]) := by
      simp [space]
    rw [hcut, scan_trans (scan_retrievalKey hs hb first (by decide))]
    rw [ih (r := { r with keys := r.keys ++ [first.bytes] }) hs hb second]
    simp

/-! ## Whole requests -/

/-- At the end of a line without payload the parser answers. -/
theorem onByte_norep_end {r : Request} (hs : r.status = .norep) (hb : r.buffer = [])
    (hr : r.remaining = 0) : onByte r 10 = .respond r := by
  have hne : ¬ ([] : Bytes) = text "noreply" := by decide
  rw [onByte_whiteSpace (by simp [hs]) (by decide)]
  simp only [onWhiteSpace, hs, hb, hr, if_neg hne, gt_iff_lt, lt_irrefl, ↓reduceIte]

theorem onByte_norep_payload {r : Request} (hs : r.status = .norep) (hb : r.buffer = [])
    (hr : 0 < r.remaining) : onByte r 10 = .next { r with status := .data } := by
  have hne : ¬ ([] : Bytes) = text "noreply" := by decide
  rw [onByte_whiteSpace (by simp [hs]) (by decide)]
  simp only [onWhiteSpace, hs, hb, if_neg hne, if_pos hr]

/-- A storage line that announces a payload. -/
theorem scan_storageHeader (kind : StorageKind) (key : Key) (flags exptime : Int32Value)
    (noreply : Bool) {n : Nat} (hn : n ≤ 2 ^ 31 - 1) (hpos : 0 < n) :
    scan (.fresh db m g) (storageLine kind key flags exptime noreply n ++ crlf) =
      some (storageAt db m g kind .data [key.bytes] flags.val exptime.val n noreply) := by
  let r := storageAt db m g kind .norep [key.bytes] flags.val exptime.val n noreply
  have hline := scan_storageLine db m g kind key flags exptime noreply hn
  have hlf : onByte r 10 = .next { r with status := .data } := onByte_norep_payload rfl rfl hpos
  have hcut : storageLine kind key flags exptime noreply n ++ crlf =
      (storageLine kind key flags exptime noreply n ++ [13]) ++ [10] := by simp [crlf]
  rw [hcut, scan_trans hline]
  simp only [scan]
  rw [hlf]
  rfl

theorem scan_storage_body (kind : StorageKind) (key : Key) (flags exptime : Int32Value)
    (noreply : Bool) (payload : Payload) (hd : payload.bytes ≠ []) :
    let r := storageAt db m g kind .data [key.bytes] flags.val exptime.val 0 noreply
    scan (.fresh db m g) (storage kind key flags exptime noreply payload).body =
      some { r with buffer := payload.bytes } := by
  intro r
  let n := payload.bytes.length
  let r₁ := storageAt db m g kind .data [key.bytes] flags.val exptime.val n noreply
  have hcut : (storage kind key flags exptime noreply payload).body =
      (storageLine kind key flags exptime noreply n ++ crlf) ++ payload.bytes := by
    simp [body, hd, n]
  have hheader : scan (.fresh db m g) (storageLine kind key flags exptime noreply n ++ crlf) =
      some r₁ :=
    scan_storageHeader db m g kind key flags exptime noreply payload.short
      (List.length_pos_of_ne_nil hd)
  have hzero : r₁.remaining - payload.bytes.length = 0 := Nat.sub_self n
  rw [hcut, scan_trans hheader, scan_payload rfl (le_refl n), hzero]
  rfl

/-- **Up to the last byte.** Every well-formed request is read to its end without
an answer, and its last byte makes the parser answer the request it encodes. -/
theorem scan_body (w : WellFormed) :
    ∃ r, scan (.fresh db m g) w.body = some r ∧ onByte r w.last = .respond (w.parsed db m) := by
  cases w with
  | storage kind key flags exptime noreply payload =>
    by_cases hd : payload.bytes = []
    · have hline := scan_storageLine db m g kind key flags exptime noreply payload.short
      refine ⟨storageAt db m g kind .norep [key.bytes] flags.val exptime.val payload.bytes.length
        noreply, by simpa only [body, if_pos hd] using hline, ?_⟩
      have hlast : (storage kind key flags exptime noreply payload).last = 10 := if_pos hd
      rw [hlast, onByte_norep_end rfl rfl (by simp [storageAt, hd])]
      simp only [storageAt, Request.fresh, parsed, lastStatus, command, keys, WellFormed.flags,
        WellFormed.exptime, WellFormed.noreply, WellFormed.payload, hd, ↓reduceIte, List.length_nil]
    · refine ⟨_, scan_storage_body db m g kind key flags exptime noreply payload hd, ?_⟩
      have hlast : (storage kind key flags exptime noreply payload).last = 13 := if_neg hd
      rw [hlast, onByte_payload_end rfl rfl]
      simp only [storageAt, Request.fresh, parsed, lastStatus, command, keys, WellFormed.flags,
        WellFormed.exptime, WellFormed.noreply, WellFormed.payload, hd, ↓reduceIte]
  | delete key noreply =>
    refine ⟨_, scan_deleteLine db m g key noreply, ?_⟩
    exact onByte_norep_end rfl rfl rfl
  | retrieval kind first more =>
    obtain ⟨hw, hc, hs⟩ := retrievalKind_parse kind
    have hcut : (retrieval kind first more).body = (kind.name ++ space) ++
        (first.bytes ++ more.flatMap (fun key => space ++ key.bytes) ++ [13]) := by
      simp [body]
    refine ⟨{ Request.fresh db m g with
      command := kind.command, status := .retrievalKey, keys := (first :: more).map Key.bytes },
      ?_, ?_⟩
    · rw [hcut, scan_trans (scan_command db m g hw hc hs (by decide)),
        scan_retrievalKeys rfl rfl first more (by decide)]
      rfl
    · rw [last, onByte_whiteSpace (by simp) (by decide)]
      rfl
  | ping =>
    refine ⟨_, scan_word (by simp [Request.fresh]) (plain_of_all (by decide)), ?_⟩
    rw [last, onByte_whiteSpace (by simp [Request.fresh]) (by decide)]
    rfl

/-- The loop answers at the last byte of the request and never looks past it. -/
theorem loop_rest (w : WellFormed) (rest : Bytes) :
    loop (.fresh db m g) (w.complete ++ rest) = prepareResponse (w.parsed db m) := by
  obtain ⟨r, hscan, hlast⟩ := scan_body db m g w
  rw [complete_eq, List.append_assoc, loop_of_scan hscan]
  simp only [List.singleton_append, loop, hlast]

theorem loop_complete (w : WellFormed) :
    loop (.fresh db m g) w.complete = prepareResponse (w.parsed db m) := by
  have h := loop_rest db m g w []
  rwa [List.append_nil] at h

/-- Before its last byte the parser is still reading. -/
theorem scan_proper (w : WellFormed) {p : Bytes} (hp : p <+: w.complete) (hne : p ≠ w.complete) :
    ∃ r, scan (.fresh db m g) p = some r := by
  obtain ⟨r, hscan, -⟩ := scan_body db m g w
  rw [complete_eq] at hp hne
  rcases List.prefix_concat_iff.mp hp with he | ⟨rest, hrest⟩
  · exact absurd he hne
  · rw [← hrest, scan_append] at hscan
    obtain ⟨r', hr', -⟩ := Option.bind_eq_some_iff.mp hscan
    exact ⟨r', hr'⟩

end Lines

/-- The calls of a parsed request whose command is `set`. -/
theorem performs_set {r : Request} {key : Bytes} {keys : List Bytes} (hk : r.keys = key :: keys)
    (hc : r.command = .set) {events : List StoreEvent} {r' : Request}
    (h : (prepareResponse r).Performs events r') :
    events.map Sigma.fst = if r.db then [.put key r.buffer] else [] := by
  cases hdb : r.db with
  | true =>
    rw [prepareResponse_set hdb hk hc, Prog.performs_call] at h
    obtain ⟨res, rest, rfl, hrest⟩ := h
    obtain ⟨rfl, -⟩ := Prog.performs_done.mp hrest
    rfl
  | false =>
    simp only [prepareResponse, hc, hdb] at h
    obtain ⟨rfl, -⟩ := Prog.performs_done.mp h
    rfl

/-- **Parsing undoes encoding.** In any chunking the request finishes on exactly
its last byte, with the members it encodes; a `set` then calls `put` once. -/
theorem parse_encode (db : Bool) (command : CommandType) (w : WellFormed) :
    (∀ chunks : List Bytes, chunks.flatten <+: w.complete → chunks.flatten ≠ w.complete →
      (feed (.fresh db 0 command) chunks).Returns fun r => r.status ≠ .finished) ∧
    (∀ chunks : List Bytes, chunks.flatten = w.complete →
      (feed (.fresh db 0 command) chunks).Returns fun r =>
        r.status = .finished ∧ r.command = w.command ∧ r.keys = w.keys ∧ r.flags = w.flags ∧
          r.expTime = w.exptime ∧ r.noReply = w.noreply ∧ r.buffer = w.payload) ∧
    (∀ key flags exptime noreply payload,
      w = .storage .set key flags exptime noreply payload →
      ∀ chunks : List Bytes, chunks.flatten = w.complete → ∀ events r,
        (feed (.fresh db 0 command) chunks).Performs events r →
        events.map Sigma.fst = if db then [.put key.bytes payload.bytes] else []) := by
  refine ⟨fun chunks hp hne => ?_, fun chunks he => ?_, ?_⟩
  · obtain ⟨r, hr⟩ := scan_proper db 0 command w hp hne
    rw [feed_fresh, loop_scanned hr]
    intro hf
    have h := (scan_continues hr).finished hf
    cases h
  · rw [feed_fresh, he, loop_complete]
    refine (prepareResponse_returns _).mono ?_
    intro _ hanswered
    obtain ⟨response, rfl⟩ := hanswered
    exact ⟨rfl, rfl, rfl, rfl, rfl, rfl, rfl⟩
  · rintro key flags exptime noreply payload rfl chunks he events r h
    rw [feed_fresh, he, loop_complete] at h
    exact performs_set rfl rfl h

end Quitsies.Tcp
