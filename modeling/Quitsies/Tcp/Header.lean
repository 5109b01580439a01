import Quitsies.Tcp.Limit
import Quitsies.Tcp.RoundTrip
import Quitsies.Text.Numeral

/-!
# Storage headers

The header of a storage command with any numbers in its fields. The parser reads
all three of them as an `int`, those it has no use for as well: a header is either
read to the state in which its payload is awaited, or rejected at the first number
that does not fit.
-/

namespace Quitsies.Tcp

open Text Interaction Db WellFormed

/-- A number that fits a 32-bit `int`. -/
def FitsInt (v : Int) : Prop := -2 ^ 31 ≤ v ∧ v < 2 ^ 31

instance (v : Int) : Decidable (FitsInt v) := inferInstanceAs (Decidable (_ ∧ _))

/-- The numeral of any other number is an error. -/
theorem stoi_unfit {v : Int} (h : ¬ FitsInt v) : stoi (decimalInt v) = .error (text "stoi") := by
  have hrange : v < -2 ^ 31 ∨ 2 ^ 31 ≤ v := by
    by_contra hn
    exact h ⟨by omega, by omega⟩
  rcases decimalInt_cases v with ⟨c, ds, he, hd, hv⟩ | ⟨ds, he, hne, hd, hv⟩
  · have hfront : NumberFront (decimalInt v) .none (c :: ds) [] :=
      ⟨by rw [he, List.append_nil]; rfl, List.cons_ne_nil c ds, hd, by simp⟩
    have happly : Sign.none.apply (readDigits (c :: ds)) = v := hv.symm
    rw [hfront.stoi_eq, happly, if_pos hrange]
  · have hfront : NumberFront (decimalInt v) .minus ds [] :=
      ⟨by rw [he, List.append_nil]; rfl, hne, hd, by simp⟩
    have happly : Sign.minus.apply (readDigits ds) = v := hv.symm
    rw [hfront.stoi_eq, happly, if_pos hrange]

structure StorageHeader where
  kind : StorageKind
  key : Key
  flags : Int
  exptime : Int
  count : Nat
  noreply : Bool

namespace StorageHeader

variable (db : Bool) (m : Nat) (g : CommandType)

def line (h : StorageHeader) : Bytes :=
  h.kind.name ++ space ++ h.key.bytes ++ space ++ decimalInt h.flags ++ space ++
    decimalInt h.exptime ++ space ++ decimal h.count ++ noreplyWord h.noreply

def bytes (h : StorageHeader) : Bytes := h.line ++ crlf

/-- Every number of the header fits. -/
def Readable (h : StorageHeader) : Prop :=
  FitsInt h.flags ∧ FitsInt h.exptime ∧ FitsInt h.count

instance (h : StorageHeader) : Decidable h.Readable := inferInstanceAs (Decidable (_ ∧ _))

/-- The request after a readable header, which is answered if it awaits no payload. -/
def awaiting (h : StorageHeader) (status : StatusType) : Request :=
  storageAt db m g h.kind status [h.key.bytes] h.flags h.exptime h.count h.noreply

theorem scan_line {h : StorageHeader} (hr : h.Readable) :
    scan (.fresh db m g) (h.line ++ [13]) = some (h.awaiting db m g .norep) := by
  obtain ⟨hflags, hexptime, hcount⟩ := hr
  have hn : h.count ≤ 2 ^ 31 - 1 := by
    have hlt := hcount.2
    omega
  exact scan_storageLine db m g h.kind h.key ⟨h.flags, hflags.1, hflags.2⟩
    ⟨h.exptime, hexptime.1, hexptime.2⟩ h.noreply hn

theorem bytes_eq (h : StorageHeader) : h.bytes = (h.line ++ [13]) ++ [10] := by
  rw [bytes, List.append_assoc]
  rfl

/-- A header with a payload is read to its end. -/
theorem scan_bytes {h : StorageHeader} (hr : h.Readable) (hpos : 0 < h.count) :
    scan (.fresh db m g) h.bytes = some (h.awaiting db m g .data) := by
  have hlf : onByte (h.awaiting db m g .norep) 10 = .next (h.awaiting db m g .data) :=
    onByte_norep_payload rfl rfl hpos
  rw [bytes_eq, scan_trans (scan_line db m g hr)]
  simp only [scan, hlf]

/-- A header without one is answered at its LF. -/
theorem loop_bytes_zero {h : StorageHeader} (hr : h.Readable) (hzero : h.count = 0)
    (data : Bytes) : loop (.fresh db m g) (h.bytes ++ data) =
      prepareResponse (h.awaiting db m g .norep) := by
  rw [bytes_eq, List.append_assoc, loop_of_scan (scan_line db m g hr)]
  simp only [List.cons_append, List.nil_append, loop]
  rw [onByte_norep_end rfl rfl hzero]

/-- The three fields that hold a number. -/
def Numeric (status : StatusType) : Prop :=
  status = .flags ∨ status = .exptime ∨ status = .nbytes

theorem onWhiteSpace_unread {r : Request} (hs : Numeric r.status) {what : Bytes}
    (he : stoi r.buffer = .error what) : onWhiteSpace r = .throw r what := by
  rcases hs with hs | hs | hs <;> simp only [onWhiteSpace, hs, he]

/-- A number that does not fit ends the request. -/
theorem refuse_number {r r' : Request} {front : Bytes} (hfront : scan r front = some r')
    (hs : Numeric r'.status) (hb : r'.buffer = []) {v : Int} (hv : ¬ FitsInt v) {c : UInt8}
    (hc : isWhiteSpace c = true) (back : Bytes) :
    scan r (front ++ (decimalInt v ++ c :: back)) = none ∧
      ∃ q : Request, q.db = r'.db ∧ ∀ data,
        loop r (front ++ (decimalInt v ++ c :: back) ++ data) =
          .done (q.rejected (text "stoi")) := by
  have hdata : r'.status ≠ .data := by
    rcases hs with hs | hs | hs <;> rw [hs] <;> decide
  have hword := scan_word hdata (plain_decimalInt v)
  rw [hb, List.nil_append] at hword
  let q : Request := { r' with buffer := decimalInt v }
  have hq : q.status ≠ .data := hdata
  have hthrow : onByte q c = .throw q (text "stoi") := by
    rw [onByte_whiteSpace hq hc]
    exact onWhiteSpace_unread (r := q) hs (stoi_unfit hv)
  refine ⟨?_, q, rfl, fun data => ?_⟩
  · rw [scan_trans hfront, scan_trans hword]
    simp only [scan, q, hthrow]
  · rw [List.append_assoc, loop_of_scan hfront, List.append_assoc, loop_of_scan hword]
    simp only [List.cons_append, loop, q, hthrow, Prog.pure_eq_done]

/-- What a header leaves after its last number begins with white space. -/
theorem exists_separator (noreply : Bool) :
    ∃ c back, isWhiteSpace c = true ∧ noreplyWord noreply ++ crlf = c :: back := by
  cases noreply with
  | false => exact ⟨13, [10], by decide, rfl⟩
  | true => exact ⟨32, text "noreply" ++ crlf, by decide, rfl⟩

/-- **A header that is not readable is rejected**, whatever follows it. -/
theorem refused {h : StorageHeader} (hr : ¬ h.Readable) :
    scan (.fresh db m g) h.bytes = none ∧ ∃ q : Request, q.db = db ∧ ∀ data,
      loop (.fresh db m g) (h.bytes ++ data) = .done (q.rejected (text "stoi")) := by
  have hkey := scan_storageKey db m g h.kind h.key
  by_cases hflags : FitsInt h.flags
  · let flags : Int32Value := ⟨h.flags, hflags.1, hflags.2⟩
    have hflags' := scan_trans hkey (decimalInt h.flags ++ space) |>.trans
      (scan_flagsField db m g h.kind [h.key.bytes] flags)
    by_cases hexptime : FitsInt h.exptime
    · let exptime : Int32Value := ⟨h.exptime, hexptime.1, hexptime.2⟩
      have hexptime' := scan_trans hflags' (decimalInt h.exptime ++ space) |>.trans
        (scan_exptimeField db m g h.kind [h.key.bytes] h.flags exptime)
      have hcount : ¬ FitsInt h.count := fun hc => hr ⟨hflags, hexptime, hc⟩
      obtain ⟨c, back, hc, hback⟩ := exists_separator h.noreply
      have hcut : h.bytes = h.kind.name ++ space ++ (h.key.bytes ++ space) ++
          (decimalInt h.flags ++ space) ++ (decimalInt h.exptime ++ space) ++
            (decimalInt h.count ++ c :: back) := by
        rw [← hback]
        simp only [bytes, line, List.append_assoc]
        rfl
      rw [hcut]
      exact refuse_number hexptime' (.inr (.inr rfl)) rfl hcount hc back
    · have hcut : h.bytes = h.kind.name ++ space ++ (h.key.bytes ++ space) ++
          (decimalInt h.flags ++ space) ++ (decimalInt h.exptime ++
            32 :: (decimal h.count ++ (noreplyWord h.noreply ++ crlf))) := by
        simp [bytes, line, space]
      rw [hcut]
      exact refuse_number hflags' (.inr (.inl rfl)) rfl hexptime (by decide) _
  · have hcut : h.bytes = h.kind.name ++ space ++ (h.key.bytes ++ space) ++
        (decimalInt h.flags ++ 32 :: (decimalInt h.exptime ++ space ++ decimal h.count ++
          (noreplyWord h.noreply ++ crlf))) := by
      simp [bytes, line, space]
    rw [hcut]
    exact refuse_number hkey (.inl rfl) rfl hflags (by decide) _

/-- The request with the block that begins `b`. -/
def complete (h : StorageHeader) (status : StatusType) (b : Bytes) : Request :=
  { h.awaiting db m g status with
    remaining := 0
    buffer := b.take h.count }

/-- A readable header is answered with its block, or before it if that is empty. -/
theorem loop_block {h : StorageHeader} (hr : h.Readable) {b : Bytes}
    (hb : ¬ (0 < h.count ∧ b.length ≤ h.count)) : ∃ status,
      loop (.fresh db m g) (h.bytes ++ b) = prepareResponse (h.complete db m g status b) := by
  by_cases hzero : h.count = 0
  · refine ⟨.norep, ?_⟩
    rw [h.loop_bytes_zero db m g hr hzero b]
    simp only [complete, awaiting, storageAt, hzero, List.take_zero]
    rfl
  · have hpos : 0 < h.count := Nat.pos_of_ne_zero hzero
    have hlen : h.count < b.length := by
      by_contra hle
      exact hb ⟨hpos, Nat.le_of_not_lt hle⟩
    obtain ⟨c, rest, hdrop⟩ : ∃ c rest, b.drop h.count = c :: rest := by
      apply List.exists_cons_of_ne_nil
      intro hnil
      have hle := List.drop_eq_nil_iff.mp hnil
      omega
    have hcut : b = b.take h.count ++ c :: rest := by rw [← hdrop, List.take_append_drop]
    have htake : (b.take h.count).length = h.count := List.length_take_of_le (Nat.le_of_lt hlen)
    let r := h.awaiting db m g .data
    have hpayload := scan_payload (r := r) rfl (Nat.le_of_eq htake)
    have hleft : r.remaining - (b.take h.count).length = 0 := by
      show h.count - (b.take h.count).length = 0
      omega
    rw [hleft] at hpayload
    let q := h.complete db m g .data b
    have hend : onByte q c = .respond q := onByte_payload_end (r := q) rfl rfl c
    refine ⟨.data, ?_⟩
    conv_lhs => rw [hcut]
    rw [loop_of_scan (h.scan_bytes db m g hr hpos), loop_of_scan hpayload]
    show loop q (c :: rest) = prepareResponse q
    simp only [loop, hend]

end StorageHeader

theorem letter_ne_nil : text "k" ≠ [] := List.cons_ne_nil _ _

theorem letter_plain : ∀ c ∈ text "k", isWhiteSpace c = false := plain_of_all (by decide)

/-- A set of five bytes. -/
def fiveBytes : StorageHeader where
  kind := .set
  key := ⟨text "k", letter_ne_nil, letter_plain⟩
  flags := 0
  exptime := 0
  count := 5
  noreply := false

end Quitsies.Tcp
