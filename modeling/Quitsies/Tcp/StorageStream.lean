import Quitsies.Tcp.Provenance

/-!
# Streams that come to a `put`

Every stream for which a storage command is executed, cut the way the parser cuts
it: five fields, each ended by one white-space byte, any number of `noreply`, one
more token, which may be empty, and what follows. The token is taken for the
beginning of the value.
-/

namespace Quitsies.Tcp

open Text Interaction Db

structure StorageStream where
  kind : StorageKind
  key : Bytes
  flags : Bytes
  exptime : Bytes
  nbytes : Bytes
  /-- The bytes that end the five fields. -/
  afterName : UInt8
  afterKey : UInt8
  afterFlags : UInt8
  afterExptime : UInt8
  afterNbytes : UInt8
  /-- The bytes that end each `noreply`. -/
  noreplies : List UInt8
  token : Bytes
  afterToken : UInt8
  rest : Bytes
  flagsValue : Int
  exptimeValue : Int
  declared : Int
  keyPlain : Plain key
  keyNonempty : key ≠ []
  flagsPlain : Plain flags
  exptimePlain : Plain exptime
  nbytesPlain : Plain nbytes
  tokenPlain : Plain token
  tokenOther : token ≠ text "noreply"
  flagsRead : stoi flags = .ok flagsValue
  exptimeRead : stoi exptime = .ok exptimeValue
  nbytesRead : stoi nbytes = .ok declared
  ends : ∀ c ∈ [afterName, afterKey, afterFlags, afterExptime, afterNbytes, afterToken] ++
    noreplies, isWhiteSpace c = true
  /-- There are more bytes than the payload, if there is one at all. -/
  complete : sizeOfInt declared = 0 ∨ sizeOfInt declared < rest.length

/-- The word `noreply`, once for each byte that ends it. -/
def noreplyWords : List UInt8 → Bytes
  | [] => []
  | c :: ends => text "noreply" ++ c :: noreplyWords ends

namespace StorageStream

variable (w : StorageStream)

/-- The five fields without the byte that ends the last one. -/
def fields : Bytes :=
  w.kind.name ++ w.afterName :: (w.key ++ w.afterKey :: (w.flags ++ w.afterFlags ::
    (w.exptime ++ w.afterExptime :: w.nbytes)))

/-- Everything before the token. -/
def header : Bytes := w.fields ++ w.afterNbytes :: noreplyWords w.noreplies

def stream : Bytes := w.header ++ (w.token ++ w.afterToken :: w.rest)

/-- What the parser counts down. -/
def counted : Nat := sizeOfInt w.declared

/-- What is put. -/
def value : Bytes := w.token ++ w.rest.take w.counted

/-- The position of the byte at which it is put. -/
def answered : Nat :=
  if w.counted = 0 then w.header.length + w.token.length
  else w.header.length + w.token.length + 1 + w.counted

/-- Where the bytes of the value are in the stream. -/
def positions : List Nat :=
  List.range' w.header.length w.token.length ++
    List.range' (w.header.length + w.token.length + 1) w.counted

/-- The request as it is executed. -/
def executed (db : Bool) (m : Nat) (g : CommandType) : Request :=
  { storageAt db m g w.kind (if w.counted = 0 then .norep else .data) [w.key] w.flagsValue
      w.exptimeValue 0 (!w.noreplies.isEmpty) with buffer := w.value }

end StorageStream

/-! ## One field at a time -/

section Fields

variable (db : Bool) (m : Nat) (g : CommandType) (kind : StorageKind)

/-- The parser behind the name of a storage command, and behind each further field. -/
theorem field_name : onWhiteSpace { Request.fresh db m g with buffer := kind.name } =
    .next (storageAt db m g kind .storageKey [] 0 0 0 false) := by
  cases kind <;> rfl

theorem field_key {key : Bytes} (h : key ≠ []) :
    onWhiteSpace { storageAt db m g kind .storageKey [] 0 0 0 false with buffer := key } =
      .next (storageAt db m g kind .flags [key] 0 0 0 false) := by
  simp only [onWhiteSpace, storageAt, pushKey, List.length_eq_zero_iff, if_neg h]
  rfl

variable (key : Bytes)

theorem field_flags {word : Bytes} {v : Int} (h : stoi word = .ok v) :
    onWhiteSpace { storageAt db m g kind .flags [key] 0 0 0 false with buffer := word } =
      .next (storageAt db m g kind .exptime [key] v 0 0 false) := by
  simp only [onWhiteSpace, storageAt, h]
  rfl

theorem field_exptime {word : Bytes} {v : Int} (h : stoi word = .ok v) (flags : Int) :
    onWhiteSpace { storageAt db m g kind .exptime [key] flags 0 0 false with buffer := word } =
      .next (storageAt db m g kind .nbytes [key] flags v 0 false) := by
  simp only [onWhiteSpace, storageAt, h]
  rfl

theorem field_nbytes {word : Bytes} {v : Int} (h : stoi word = .ok v) (flags exptime : Int) :
    onWhiteSpace { storageAt db m g kind .nbytes [key] flags exptime 0 false with buffer := word } =
      .next (storageAt db m g kind .norep [key] flags exptime (sizeOfInt v) false) := by
  simp only [onWhiteSpace, storageAt, h]
  rfl

variable (flags exptime : Int) (n : Nat)

theorem field_noreply (noreply : Bool) :
    onWhiteSpace { storageAt db m g kind .norep [key] flags exptime n noreply with
        buffer := text "noreply" } =
      .next (storageAt db m g kind .norep [key] flags exptime n true) := by
  simp only [onWhiteSpace, storageAt, ↓reduceIte]
  rfl

/-- The token that is no `noreply` ends the header. -/
theorem field_token (noreply : Bool) {token : Bytes} (h : token ≠ text "noreply") :
    onWhiteSpace { storageAt db m g kind .norep [key] flags exptime n noreply with
        buffer := token } =
      if 0 < n then
        .next { storageAt db m g kind .data [key] flags exptime n noreply with buffer := token }
      else .respond { storageAt db m g kind .norep [key] flags exptime n noreply with
        buffer := token } := by
  simp only [onWhiteSpace, storageAt, if_neg h]
  rfl

/-- The header's words `noreply`. -/
theorem answerAt_noreplies (i : Nat) (noreply : Bool) {ends : List UInt8}
    (h : ∀ c ∈ ends, isWhiteSpace c = true) (data : Bytes) :
    answerAt (storageAt db m g kind .norep [key] flags exptime n noreply) i []
        (noreplyWords ends ++ data) =
      answerAt (storageAt db m g kind .norep [key] flags exptime n (noreply || !ends.isEmpty))
        (i + (noreplyWords ends).length) [] data := by
  induction ends generalizing i noreply with
  | nil => simp [noreplyWords]
  | cons c ends ih =>
    obtain ⟨hc, hends⟩ := List.forall_mem_cons.mp h
    have hword : Plain (text "noreply") := plain_of_all (by decide)
    rw [noreplyWords, List.append_assoc, List.cons_append,
      answerAt_field (by simp [storageAt]) rfl hword hc
        (field_noreply db m g kind key flags exptime n noreply) rfl,
      ih _ _ hends]
    simp only [List.length_append, List.length_cons, Bool.true_or, List.isEmpty_cons,
      Bool.not_false, Bool.or_true]
    congr 1
    omega

/-- The payload, counted down from what the header declared. -/
theorem answerAt_counted {r : Request} {i : Nat} {positions : List Nat} (h : r.status = .data)
    (hp : positions.length = r.buffer.length) {rest : Bytes} (hrest : r.remaining < rest.length) :
    answerAt r i positions rest =
      some ({ r with remaining := 0, buffer := r.buffer ++ rest.take r.remaining },
        i + r.remaining, positions ++ List.range' i r.remaining) := by
  have htake : (rest.take r.remaining).length = r.remaining := List.length_take_of_le hrest.le
  obtain ⟨c, tail, htail⟩ : ∃ c tail, rest.drop r.remaining = c :: tail := by
    refine List.exists_cons_of_ne_nil fun hdrop => ?_
    rw [List.drop_eq_nil_iff] at hdrop
    omega
  have hgo : answerAt r i positions (rest.take r.remaining ++ c :: tail) = _ :=
    answerAt_payload h htake.le (c :: tail)
  rw [← htail, List.take_append_drop, htake, Nat.sub_self, htail] at hgo
  rw [hgo]
  let r' : Request := { r with remaining := 0, buffer := r.buffer ++ rest.take r.remaining }
  have hp' : (positions ++ List.range' i r.remaining).length = r'.buffer.length := by
    show (positions ++ _).length = (r.buffer ++ _).length
    rw [List.length_append, List.length_append, List.length_range', htake, hp]
  exact answerAt_payload_end (r := r') h rfl hp' c tail

/-- A payload that has not all come yet is not answered. -/
theorem answerAt_short {r : Request} {i : Nat} {positions : List Nat} (h : r.status = .data)
    {rest : Bytes} (hrest : rest.length ≤ r.remaining) : answerAt r i positions rest = none := by
  rw [← List.append_nil rest, answerAt_payload h hrest]
  rfl

/-- The token and the payload after it. -/
theorem answerAt_token (i : Nat) (noreply : Bool) {token : Bytes} (hplain : Plain token)
    (h : token ≠ text "noreply") {c : UInt8} (hc : isWhiteSpace c = true) {rest : Bytes}
    (hrest : n = 0 ∨ n < rest.length) :
    answerAt (storageAt db m g kind .norep [key] flags exptime n noreply) i []
        (token ++ c :: rest) =
      some ({ storageAt db m g kind (if n = 0 then .norep else .data) [key] flags exptime 0
          noreply with buffer := token ++ rest.take n },
        if n = 0 then i + token.length else i + token.length + 1 + n,
        List.range' i token.length ++ List.range' (i + token.length + 1) n) := by
  let r := storageAt db m g kind .norep [key] flags exptime n noreply
  have hr : r.status ≠ .data := by simp [r, storageAt]
  have hr' : ({ r with buffer := token } : Request).status ≠ .data := hr
  have hb : r.buffer ++ token = token := rfl
  rw [answerAt_word hr hplain, hb, List.nil_append, answerAt_whiteSpace hr' hc,
    field_token db m g kind key flags exptime n noreply h]
  have hlen : (List.range' i token.length).length = token.length := List.length_range'
  rcases Nat.eq_zero_or_pos n with rfl | hn
  · have htrack : track { r with buffer := token } { r with buffer := token } (i + token.length)
        (List.range' i token.length) = List.range' i token.length := track_keep rfl hlen
    rw [if_neg (Nat.lt_irrefl 0)]
    simp only
    rw [htrack]
    simp
  · have hlt : n < rest.length := hrest.resolve_left (by omega)
    have htrack : track { r with buffer := token }
        { storageAt db m g kind .data [key] flags exptime n noreply with buffer := token }
        (i + token.length) (List.range' i token.length) = List.range' i token.length :=
      track_keep rfl hlen
    rw [if_pos hn, if_neg (by omega), if_neg (by omega)]
    simp only
    rw [htrack]
    exact answerAt_counted rfl hlen hlt

end Fields

/-! ## What the parser makes of such a stream -/

namespace StorageStream

variable (w : StorageStream)

/-- The stream, field by field. -/
theorem stream_eq : w.stream =
    w.kind.name ++ w.afterName :: (w.key ++ w.afterKey :: (w.flags ++ w.afterFlags ::
      (w.exptime ++ w.afterExptime :: (w.nbytes ++ w.afterNbytes :: (noreplyWords w.noreplies ++
        (w.token ++ w.afterToken :: w.rest)))))) := by
  simp only [stream, header, fields, List.append_assoc, List.cons_append]

theorem header_length : w.header.length =
    0 + w.kind.name.length + 1 + w.key.length + 1 + w.flags.length + 1 + w.exptime.length + 1 +
      w.nbytes.length + 1 + (noreplyWords w.noreplies).length := by
  simp only [header, fields, List.length_append, List.length_cons]
  omega

theorem answerAt_stream (db : Bool) (m : Nat) (g : CommandType) :
    answerAt (.fresh db m g) 0 [] w.stream =
      some (w.executed db m g, w.answered, w.positions) := by
  have hends := w.ends
  simp only [List.cons_append, List.forall_mem_cons, List.nil_append] at hends
  obtain ⟨hname, hkey, hflags, hexptime, hnbytes, htoken, hnoreplies⟩ := hends
  have hkind : Plain w.kind.name := (storageKind_parse w.kind).1
  rw [w.stream_eq,
    answerAt_field (by simp [Request.fresh]) rfl hkind hname (field_name db m g w.kind) rfl,
    answerAt_field (by simp [storageAt]) rfl w.keyPlain hkey
      (field_key db m g w.kind w.keyNonempty) rfl,
    answerAt_field (by simp [storageAt]) rfl w.flagsPlain hflags
      (field_flags db m g w.kind w.key w.flagsRead) rfl,
    answerAt_field (by simp [storageAt]) rfl w.exptimePlain hexptime
      (field_exptime db m g w.kind w.key w.exptimeRead w.flagsValue) rfl,
    answerAt_field (by simp [storageAt]) rfl w.nbytesPlain hnbytes
      (field_nbytes db m g w.kind w.key w.nbytesRead w.flagsValue w.exptimeValue) rfl,
    answerAt_noreplies db m g w.kind w.key w.flagsValue w.exptimeValue _ _ false hnoreplies,
    answerAt_token db m g w.kind w.key w.flagsValue w.exptimeValue _ _ _ w.tokenPlain w.tokenOther
      htoken w.complete, ← w.header_length, Bool.false_or]
  rfl

end StorageStream

/-! ## Every stream that comes to a storage command is one -/

theorem storage_name {word : Bytes} (h : (commandFromStr word).Storage) :
    ∃ kind : StorageKind, word = kind.name := by
  unfold commandFromStr at h
  split at h
  · next hw => exact ⟨.set, hw⟩
  split at h
  · next hw => exact ⟨.add, hw⟩
  repeat' split at h
  all_goals rcases h with h | h <;> cases h

/-- The white space after a word makes the parser go on with what `field` says, its
buffer empty, or throw. -/
def Stage (r : Request) (field : Bytes → Request → Prop) : Prop :=
  ∀ word, (∃ r', onWhiteSpace { r with buffer := word } = .next r' ∧ r'.buffer = [] ∧
      field word r') ∨
    ∃ q what, onWhiteSpace { r with buffer := word } = .throw q what

section Inversion

variable {x : Request × Nat × List Nat} {i : Nat} {data : Bytes}

/-- A stage has ended where the loop answers. -/
theorem answerAt_stage {r : Request} (h : r.status ≠ .data) (hb : r.buffer = [])
    {field : Bytes → Request → Prop} (hstage : Stage r field) (ha : answerAt r i [] data = some x) :
    ∃ word c rest r' j, data = word ++ c :: rest ∧ Plain word ∧ isWhiteSpace c = true ∧
      field word r' ∧ answerAt r' j [] rest = some x := by
  obtain ⟨word, c, rest, rfl, hword, hc, hend⟩ := answerAt_field_inv h hb ha
  rcases hstage word with ⟨r', he, hb', hfield⟩ | ⟨q, what, he⟩
  · rcases hend with ⟨q, hq, -⟩ | ⟨r₁, hr₁, hrest⟩
    · rw [he] at hq; cases hq
    · obtain rfl : r' = r₁ := ByteResult.next.inj (he.symm.trans hr₁)
      rw [track_clear hb'] at hrest
      exact ⟨word, c, rest, r', _, rfl, hword, hc, hfield, hrest⟩
  · rcases hend with ⟨q', hq, -⟩ | ⟨r₁, hr₁, -⟩
    · rw [he] at hq; cases hq
    · rw [he] at hr₁; cases hr₁

/-- A stage that reads a number. -/
theorem stage_number {r : Request} {next : Int → Request} (hnext : ∀ v, (next v).buffer = [])
    (hread : ∀ word v, stoi word = .ok v →
      onWhiteSpace { r with buffer := word } = .next (next v))
    (herror : ∀ word what, stoi word = .error what →
      onWhiteSpace { r with buffer := word } = .throw { r with buffer := word } what) :
    Stage r fun word r' => ∃ v, stoi word = .ok v ∧ r' = next v := by
  intro word
  cases h : stoi word with
  | ok v => exact .inl ⟨next v, hread word v h, hnext v, v, h, rfl⟩
  | error what => exact .inr ⟨_, what, herror word what h⟩

variable (db : Bool) (m : Nat) (g : CommandType) (kind : StorageKind) (key : Bytes)

theorem stage_key : Stage (storageAt db m g kind .storageKey [] 0 0 0 false) fun word r' =>
    word ≠ [] ∧ r' = storageAt db m g kind .flags [word] 0 0 0 false := by
  intro word
  by_cases h : word = []
  · subst h
    exact .inr ⟨_, _, rfl⟩
  · exact .inl ⟨_, field_key db m g kind h, rfl, h, rfl⟩

theorem stage_flags : Stage (storageAt db m g kind .flags [key] 0 0 0 false) fun word r' =>
    ∃ v, stoi word = .ok v ∧ r' = storageAt db m g kind .exptime [key] v 0 0 false := by
  refine stage_number (fun _ => rfl) (fun _ _ h => field_flags db m g kind key h) ?_
  intro word what h
  simp only [onWhiteSpace, storageAt, h]

theorem stage_exptime (flags : Int) :
    Stage (storageAt db m g kind .exptime [key] flags 0 0 false) fun word r' =>
      ∃ v, stoi word = .ok v ∧ r' = storageAt db m g kind .nbytes [key] flags v 0 false := by
  refine stage_number (fun _ => rfl) (fun _ _ h => field_exptime db m g kind key h flags) ?_
  intro word what h
  simp only [onWhiteSpace, storageAt, h]

theorem stage_nbytes (flags exptime : Int) :
    Stage (storageAt db m g kind .nbytes [key] flags exptime 0 false) fun word r' =>
      ∃ v, stoi word = .ok v ∧
        r' = storageAt db m g kind .norep [key] flags exptime (sizeOfInt v) false := by
  refine stage_number (fun _ => rfl) (fun _ _ h => field_nbytes db m g kind key h flags exptime) ?_
  intro word what h
  simp only [onWhiteSpace, storageAt, h]

/-- The words `noreply` and the token end where the loop answers. -/
theorem answerAt_tail (flags exptime : Int) (n : Nat) {noreply : Bool}
    (ha : answerAt (storageAt db m g kind .norep [key] flags exptime n noreply) i [] data =
      some x) :
    ∃ noreplies token c rest, data = noreplyWords noreplies ++ (token ++ c :: rest) ∧
      (∀ e ∈ c :: noreplies, isWhiteSpace e = true) ∧ Plain token ∧ token ≠ text "noreply" ∧
      (n = 0 ∨ n < rest.length) := by
  -- Every `noreply` takes the parser back to where it was, with fewer bytes to come.
  induction hlen : data.length using Nat.strong_induction_on generalizing i noreply data with
  | _ len ih =>
    have hs : (storageAt db m g kind .norep [key] flags exptime n noreply).status ≠ .data := by
      simp [storageAt]
    obtain ⟨word, c, rest, rfl, hword, hc, hend⟩ := answerAt_field_inv hs rfl ha
    by_cases hw : word = text "noreply"
    · subst hw
      rw [field_noreply] at hend
      rcases hend with ⟨q, hq, -⟩ | ⟨r', hr', hrest⟩
      · cases hq
      · cases hr'
        rw [track_clear rfl] at hrest
        have hshort : rest.length < len := by
          rw [← hlen, List.length_append, List.length_cons]
          omega
        obtain ⟨noreplies, token, d, rest', rfl, hends, htoken⟩ := ih _ hshort hrest rfl
        obtain ⟨hd, hnoreplies⟩ := List.forall_mem_cons.mp hends
        refine ⟨c :: noreplies, token, d, rest', by simp [noreplyWords], ?_, htoken⟩
        exact List.forall_mem_cons.mpr ⟨hd, List.forall_mem_cons.mpr ⟨hc, hnoreplies⟩⟩
    · refine ⟨[], word, c, rest, rfl, List.forall_mem_cons.mpr ⟨hc, fun _ h => absurd h
        List.not_mem_nil⟩, hword, hw, ?_⟩
      rcases Nat.eq_zero_or_pos n with hn | hn
      · exact .inl hn
      · right
        rw [field_token _ _ _ _ _ _ _ _ _ hw, if_pos hn] at hend
        rcases hend with ⟨q, hq, -⟩ | ⟨r', hr', hrest⟩
        · cases hq
        · cases hr'
          by_contra hle
          rw [answerAt_short rfl (Nat.le_of_not_lt hle)] at hrest
          cases hrest

end Inversion

/-- The first word is the command. -/
theorem onWhiteSpace_first {r : Request} (h : r.status = .command) {word : Bytes}
    (hb : r.buffer = word) :
    (onWhiteSpace r).request.command = commandFromStr word ∧
      ∀ r', onWhiteSpace r = .next r' → r'.status ≠ .command := by
  simp only [onWhiteSpace, h, hb]
  cases hs : statusFromCommand (commandFromStr word) with
  | error what =>
    refine ⟨rfl, fun r' hr' => ?_⟩
    cases hr'
  | ok status =>
    simp only
    split
    · refine ⟨rfl, fun r' hr' => ?_⟩
      cases hr'
    · refine ⟨rfl, fun r' hr' => ?_⟩
      cases hr'
      exact statusFromCommand_ne hs

/-- A storage command begins with its name. -/
theorem answerAt_name (db : Bool) (m : Nat) (g : CommandType) {data : Bytes} {q : Request}
    {j : Nat} {positions : List Nat}
    (ha : answerAt (.fresh db m g) 0 [] data = some (q, j, positions)) (hq : q.command.Storage) :
    ∃ (kind : StorageKind) (c : UInt8) (rest : Bytes) (i : Nat), data = kind.name ++ c :: rest ∧
      isWhiteSpace c = true ∧
      answerAt (storageAt db m g kind .storageKey [] 0 0 0 false) i [] rest =
        some (q, j, positions) := by
  have hs : (Request.fresh db m g).status ≠ .data := by simp [Request.fresh]
  obtain ⟨name, c, rest, rfl, -, hc, hend⟩ := answerAt_field_inv hs rfl ha
  have hfirst := onWhiteSpace_first (r := { Request.fresh db m g with buffer := name }) rfl rfl
  have hcommand : q.command = commandFromStr name := by
    rcases hend with ⟨q', hq', hx⟩ | ⟨r', hr', hrest⟩
    · rw [hq'] at hfirst
      cases hx
      exact hfirst.1
    · have hcommand := answerAt_command (hfirst.2 r' hr') hrest
      rw [hr'] at hfirst
      exact hcommand.trans hfirst.1
  obtain ⟨kind, rfl⟩ := storage_name (hcommand ▸ hq)
  rw [field_name] at hend
  rcases hend with ⟨q', hq', -⟩ | ⟨r', hr', hrest⟩
  · cases hq'
  · cases hr'
    rw [track_clear rfl] at hrest
    exact ⟨kind, c, rest, _, rfl, hc, hrest⟩

/-- **A storage command is executed only on a stream of this form.** -/
theorem exists_stream (db : Bool) (m : Nat) (g : CommandType) {data : Bytes} {q : Request}
    {j : Nat} {positions : List Nat}
    (ha : answerAt (.fresh db m g) 0 [] data = some (q, j, positions)) (hq : q.command.Storage) :
    ∃ w : StorageStream, w.stream = data := by
  obtain ⟨kind, c₁, data, _, rfl, hc₁, hrest⟩ := answerAt_name db m g ha hq
  obtain ⟨key, c₂, data, _, _, rfl, hkey, hc₂, ⟨hnonempty, rfl⟩, hrest⟩ :=
    answerAt_stage (by simp [storageAt]) rfl (stage_key db m g kind) hrest
  obtain ⟨flags, c₃, data, _, _, rfl, hflags, hc₃, ⟨flagsValue, hflagsRead, rfl⟩, hrest⟩ :=
    answerAt_stage (by simp [storageAt]) rfl (stage_flags db m g kind key) hrest
  obtain ⟨exptime, c₄, data, _, _, rfl, hexptime, hc₄, ⟨exptimeValue, hexptimeRead, rfl⟩, hrest⟩ :=
    answerAt_stage (by simp [storageAt]) rfl (stage_exptime db m g kind key flagsValue) hrest
  obtain ⟨nbytes, c₅, data, _, _, rfl, hnbytes, hc₅, ⟨declared, hnbytesRead, rfl⟩, hrest⟩ :=
    answerAt_stage (by simp [storageAt]) rfl (stage_nbytes db m g kind key flagsValue exptimeValue)
      hrest
  obtain ⟨noreplies, token, c₆, rest, rfl, hends, htoken, hother, hcomplete⟩ :=
    answerAt_tail db m g kind key flagsValue exptimeValue _ hrest
  obtain ⟨hc₆, hnoreplies⟩ := List.forall_mem_cons.mp hends
  let w : StorageStream :=
    { kind := kind
      key := key
      flags := flags
      exptime := exptime
      nbytes := nbytes
      afterName := c₁
      afterKey := c₂
      afterFlags := c₃
      afterExptime := c₄
      afterNbytes := c₅
      noreplies := noreplies
      token := token
      afterToken := c₆
      rest := rest
      flagsValue := flagsValue
      exptimeValue := exptimeValue
      declared := declared
      keyPlain := hkey
      keyNonempty := hnonempty
      flagsPlain := hflags
      exptimePlain := hexptime
      nbytesPlain := hnbytes
      tokenPlain := htoken
      tokenOther := hother
      flagsRead := hflagsRead
      exptimeRead := hexptimeRead
      nbytesRead := hnbytesRead
      ends := by
        simp only [List.cons_append, List.nil_append, List.forall_mem_cons]
        exact ⟨hc₁, hc₂, hc₃, hc₄, hc₅, hc₆, hnoreplies⟩
      complete := hcomplete }
  exact ⟨w, w.stream_eq⟩

end Quitsies.Tcp
