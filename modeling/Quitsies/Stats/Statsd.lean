import Mathlib.Data.List.DropRight
import Quitsies.Stats.Aggregator
import Quitsies.Text.Numeral
import Quitsies.Text.Printf

/-!
# `stats::statsd`

The client that writes a metric into a datagram. Its prefix is the front of the
format string, so it is not only text: percent signs in it are directives, and the
`std::string` is read up to its first NUL. Counters and sets are printed with `%d`.
-/

namespace Quitsies.Stats

open Text

/-! ## The client -/

def typeCounter : Bytes := text "%s:%d|c"
def typeTimer : Bytes := text "%s:%lu|ms"
def typeGauge : Bytes := text "%s:%lu|g"
def typeSet : Bytes := text "%s:%d|s"

def maxBufferSize : Nat := 256

/-- The member of `statsd` that formatting reads. -/
structure Statsd where
  front : Bytes

/-- What `send_stat` comes to before the socket: undefined behaviour, its own
exception, or a datagram. -/
inductive SendStat where
  | undefined
  | tooLarge
  | datagram (bytes : Bytes)
  deriving DecidableEq

namespace Statsd

def construct (pre : Bytes) : Statsd := ⟨pre ++ text "."⟩

def sendStat (c : Statsd) (mask : Bytes) (args : List Arg) : SendStat :=
  match snprintf (cString (c.front ++ mask)) args with
  | none => .undefined
  | some buffer =>
    if buffer.length = 0 ∨ maxBufferSize ≤ buffer.length then .tooLarge else .datagram buffer

def counter (c : Statsd) (name : Bytes) (value : Int) : SendStat :=
  c.sendStat typeCounter [.string (cString name), .word value]

def timer (c : Statsd) (name : Bytes) (value : Nat) : SendStat :=
  c.sendStat typeTimer [.string (cString name), .word value]

def gauge (c : Statsd) (name : Bytes) (value : Nat) : SendStat :=
  c.sendStat typeGauge [.string (cString name), .word value]

def set (c : Statsd) (name : Bytes) (value : Int) : SendStat :=
  c.sendStat typeSet [.string (cString name), .word value]

def send (c : Statsd) : Metric → SendStat
  | .counter name value => c.counter name value
  | .timer name value => c.timer name value
  | .gauge name value => c.gauge name value
  | .set name value => c.set name value

end Statsd

/-! ## The datagram of a metric -/

namespace Metric

def name : Metric → Bytes
  | counter name _ => name
  | timer name _ => name
  | gauge name _ => name
  | set name _ => name

def value : Metric → Int
  | counter _ value => value
  | timer _ value => value
  | gauge _ value => value
  | set _ value => value

def mask : Metric → Bytes
  | counter _ _ => typeCounter
  | timer _ _ => typeTimer
  | gauge _ _ => typeGauge
  | set _ _ => typeSet

/-- The letters behind the last bar. -/
def suffix : Metric → Bytes
  | counter _ _ => text "c"
  | timer _ _ => text "ms"
  | gauge _ _ => text "g"
  | set _ _ => text "s"

/-- Whether the value is a `value_t`, and not a `uvalue_t`. -/
def signed : Metric → Bool
  | counter _ _ => true
  | timer _ _ => false
  | gauge _ _ => false
  | set _ _ => true

/-- The value has the type it is declared with. -/
def Declared (m : Metric) : Prop :=
  if m.signed then -2 ^ 63 ≤ m.value ∧ m.value < 2 ^ 63 else 0 ≤ m.value ∧ m.value < 2 ^ 64

instance (m : Metric) : Decidable m.Declared := inferInstanceAs (Decidable (ite _ _ _))

/-- What the conversion of the mask prints. -/
def printed (m : Metric) : Bytes :=
  if m.signed then decimalInt (low32 m.value) else decimal (unsigned64 m.value)

end Metric

/-- The datagram as it should be. -/
def datagram (pre : Bytes) (m : Metric) : Bytes :=
  pre ++ (text "." ++ (m.name ++ (text ":" ++ (decimalInt m.value ++ (text "|" ++ m.suffix)))))

theorem send_eq (c : Statsd) (m : Metric) :
    c.send m = c.sendStat m.mask [.string (cString m.name), .word m.value] := by
  cases m <;> rfl

/-- What is printed for a mask. -/
theorem snprintf_mask (m : Metric) (name : Bytes) :
    snprintf m.mask [.string name, .word m.value] =
      some (name ++ (text ":" ++ (m.printed ++ (text "|" ++ m.suffix)))) := by
  cases m <;> rfl

/-! ## Reading a datagram -/

/-- The string before and behind the last byte `c`. -/
def splitLast (c : UInt8) (s : Bytes) : Option (Bytes × Bytes) :=
  if c ∈ s then some ((s.rdropWhile (· != c)).dropLast, s.rtakeWhile (· != c)) else none

theorem splitLast_append {c : UInt8} {b : Bytes} (h : c ∉ b) (a : Bytes) :
    splitLast c (a ++ c :: b) = some (a, b) := by
  have hmem : c ∈ a ++ c :: b := by simp
  have hb : ∀ d ∈ b.reverse, (d != c) = true := by
    intro d hd
    have hne : d ≠ c := fun he => h (he ▸ List.mem_reverse.mp hd)
    simpa using hne
  have hrev : (a ++ c :: b).reverse = b.reverse ++ c :: a.reverse := by simp
  have htake : (a ++ c :: b).rtakeWhile (· != c) = b := by
    rw [List.rtakeWhile, hrev, List.takeWhile_append_of_pos hb]
    simp
  have hdrop : (a ++ c :: b).rdropWhile (· != c) = a ++ [c] := by
    rw [List.rdropWhile, hrev, List.dropWhile_append_of_pos hb]
    simp
  rw [splitLast, if_pos hmem, htake, hdrop, List.dropLast_concat]

/-- Name, value and type of a metric: what stands before the last colon, between it
and the last bar, and behind that. -/
def parse (d : Bytes) : Option (Bytes × Int × Bytes) := do
  let (front, suffix) ← splitLast 124 d
  let (name, numeral) ← splitLast 58 front
  let value ← readInt numeral
  return (name, value, suffix)

theorem parse_datagram (pre : Bytes) (m : Metric) :
    parse (datagram pre m) = some (pre ++ text "." ++ m.name, m.value, m.suffix) := by
  have hbar : 124 ∉ m.suffix := by cases m <;> simp only [Metric.suffix] <;> decide
  have hcolon : 58 ∉ decimalInt m.value := notMem_decimalInt (by decide) m.value
  have hcut : datagram pre m =
      (pre ++ text "." ++ m.name ++ 58 :: decimalInt m.value) ++ 124 :: m.suffix := by
    have hc : text ":" = [58] := by decide
    have hb : text "|" = [124] := by decide
    simp [datagram, hc, hb]
  rw [hcut, parse, splitLast_append hbar]
  show (do
    let (name, numeral) ← splitLast 58 (pre ++ text "." ++ m.name ++ 58 :: decimalInt m.value)
    let value ← readInt numeral
    return (name, value, m.suffix)) = _
  rw [splitLast_append hcolon]
  show (do
    let value ← readInt (decimalInt m.value)
    return (pre ++ text "." ++ m.name, value, m.suffix)) = _
  rw [readInt_decimalInt]
  rfl

/-! ## What a prefix can do to the format -/

/-- An argument whose string ends where its first NUL would be. -/
def Arg.NulFree : Arg → Prop
  | .string s => 0 ∉ s
  | .word _ => True

theorem printStep_nulFree {d d' : Directive} {c : UInt8} {args args' : List Arg}
    {piece : Bytes} (hs : PrintStep d c args d' args' piece) (hc : 0 ≠ c)
    (hargs : ∀ arg ∈ args, Arg.NulFree arg) :
    0 ∉ piece ∧ ∀ arg ∈ args', Arg.NulFree arg := by
  cases hs with
  | literal hpercent => exact ⟨fun hm => hc (List.mem_singleton.mp hm), hargs⟩
  | opens => exact ⟨List.not_mem_nil, hargs⟩
  | percent => exact ⟨by decide, hargs⟩
  | long => exact ⟨List.not_mem_nil, hargs⟩
  | string => exact List.forall_mem_cons.mp hargs
  | int => exact ⟨notMem_decimalInt (by decide) _, (List.forall_mem_cons.mp hargs).2⟩
  | unsigned =>
    exact ⟨notMem_decimalInt (by decide) (unsigned64 _ : Nat), (List.forall_mem_cons.mp hargs).2⟩

/-- Nothing that is printed is a NUL, unless it stands in the format or an argument. -/
theorem printFrom_nulFree {d : Directive} {format : Bytes} {args : List Arg} {out : Bytes}
    (hformat : 0 ∉ format) (hargs : ∀ arg ∈ args, Arg.NulFree arg)
    (h : printFrom d format args = some out) : 0 ∉ out := by
  induction format generalizing d args out with
  | nil =>
    cases d with
    | none =>
      obtain rfl := (Option.some.inj h).symm
      exact List.not_mem_nil
    | percent => cases h
    | long => cases h
  | cons c format ih =>
    rw [List.mem_cons, not_or] at hformat
    obtain ⟨d', args', piece, out', hs, hout', rfl⟩ := printFrom_step h
    obtain ⟨hpiece, hargs'⟩ := printStep_nulFree hs hformat.1 hargs
    rw [List.mem_append, not_or]
    exact ⟨hpiece, ih hformat.2 hargs' hout'⟩

/-- The string of the mask takes a string. -/
theorem printFrom_mask {d : Directive} {back : Bytes} {args : List Arg} {out : Bytes}
    (h : printFrom d (46 :: 37 :: 115 :: back) args = some out) :
    d = .none ∧ ∃ s args', args = .string s :: args' := by
  obtain ⟨d₁, args₁, piece₁, out₁, hdot, hout₁, rfl⟩ := printFrom_step h
  cases hdot with
  | literal hc =>
    obtain ⟨d₂, args₂, piece₂, out₂, hpercent, hout₂, rfl⟩ := printFrom_step hout₁
    cases hpercent with
    | literal hc => exact absurd rfl hc
    | opens =>
      obtain ⟨d₃, args₃, piece₃, out₃, hstring, hout₃, rfl⟩ := printFrom_step hout₂
      cases hstring with
      | string => exact ⟨rfl, _, _, rfl⟩

/-- Without a string argument left, the string of the mask is undefined. -/
theorem printFrom_words {d : Directive} {p back : Bytes} {args : List Arg} {out : Bytes}
    (hargs : ∀ arg ∈ args, ∃ v, arg = .word v) :
    printFrom d (p ++ 46 :: 37 :: 115 :: back) args ≠ some out := by
  intro h
  induction p generalizing d args out with
  | nil =>
    obtain ⟨-, s, args', rfl⟩ := printFrom_mask h
    obtain ⟨v, hv⟩ := hargs _ List.mem_cons_self
    cases hv
  | cons c p ih =>
    obtain ⟨d', args', piece, out', hs, hout', rfl⟩ := printFrom_step h
    refine ih (fun arg harg => hargs arg ?_) hout'
    cases hs with
    | literal | opens | percent | long => exact harg
    | string | int | unsigned => exact List.mem_cons_of_mem _ harg

/-- Of two percent signs in a prefix only one is printed, and any other directive is
undefined: it takes the name for itself. -/
theorem printFrom_count {d : Directive} {p back name : Bytes} {v : Int}
    (hback : ∀ out, printFrom .none (46 :: 37 :: 115 :: back) [.string name, .word v] = some out →
      out.count 37 = name.count 37)
    {out : Bytes}
    (h : printFrom d (p ++ 46 :: 37 :: 115 :: back) [.string name, .word v] = some out) :
    d ≠ .long ∧
      2 * out.count 37 = p.count 37 + (if d = .none then 0 else 1) + 2 * name.count 37 := by
  induction p generalizing d out with
  | nil =>
    obtain ⟨rfl, -⟩ := printFrom_mask h
    have hcount := hback out h
    refine ⟨Directive.noConfusion, ?_⟩
    simp only [List.count_nil, ↓reduceIte]
    omega
  | cons c p ih =>
    obtain ⟨d', args', piece, out', hs, hout', rfl⟩ := printFrom_step h
    rw [List.count_append]
    cases hs with
    | literal hc =>
      obtain ⟨-, hrest⟩ := ih hout'
      refine ⟨Directive.noConfusion, ?_⟩
      rw [List.count_cons_of_ne hc, List.count_cons_of_ne hc]
      simp only [List.count_nil, ↓reduceIte] at hrest ⊢
      omega
    | opens =>
      obtain ⟨-, hrest⟩ := ih hout'
      refine ⟨Directive.noConfusion, ?_⟩
      rw [List.count_cons_self]
      simp only [List.count_nil, reduceCtorEq, ↓reduceIte] at hrest ⊢
      omega
    | percent =>
      obtain ⟨-, hrest⟩ := ih hout'
      refine ⟨Directive.noConfusion, ?_⟩
      rw [List.count_cons_self, List.count_cons_self]
      simp only [List.count_nil, reduceCtorEq, ↓reduceIte] at hrest ⊢
      omega
    | long => exact absurd rfl (ih hout').1
    | string => exact absurd hout' (printFrom_words (by simp))

/-! ## The exact datagram -/

/-- The datagram of a metric is what it should be, and can be read back. -/
def ExactDatagram (pre : Bytes) (m : Metric) : Prop :=
  ∃ d, (Statsd.construct pre).send m = .datagram d ∧ d = datagram pre m ∧
    parse d = some (pre ++ text "." ++ m.name, m.value, m.suffix)

/-- What is printed is the value, unless it is a `value_t` that is no `int`. -/
theorem printed_eq_iff {m : Metric} (h : m.Declared) :
    m.printed = decimalInt m.value ↔ (m.signed = true → -2 ^ 31 ≤ m.value ∧ m.value < 2 ^ 31) := by
  unfold Metric.printed
  cases hs : m.signed with
  | true =>
    rw [if_pos rfl]
    constructor
    · intro he _
      exact (low32_eq_iff m.value).mp (decimalInt_injective he)
    · intro hrange
      rw [(low32_eq_iff m.value).mpr (hrange rfl)]
  | false =>
    simp only [Metric.Declared, hs, Bool.false_eq_true, ↓reduceIte] at h
    refine iff_of_true ?_ nofun
    have hword : unsigned64 m.value = m.value.toNat := by
      unfold unsigned64
      omega
    have hvalue : m.value = Int.ofNat m.value.toNat := (Int.toNat_of_nonneg h.1).symm
    rw [if_neg Bool.false_ne_true, hword]
    conv_rhs => rw [hvalue]
    rfl

/-- The string of the mask comes first. -/
theorem exists_mask (m : Metric) : ∃ back, m.mask = 37 :: 115 :: back := by
  cases m <;> exact ⟨_, rfl⟩

theorem sendStat_datagram {c : Statsd} {mask d : Bytes} {args : List Arg}
    (h : c.sendStat mask args = .datagram d) :
    snprintf (cString (c.front ++ mask)) args = some d := by
  unfold Statsd.sendStat at h
  split at h
  · cases h
  · next buffer hb =>
    split at h
    · cases h
    · cases h
      exact hb

/-- Only a name or a prefix has percent signs. -/
theorem count_suffix (m : Metric) {numeral : Bytes} (h : 37 ∉ numeral) :
    (text ":" ++ (numeral ++ (text "|" ++ m.suffix))).count 37 = 0 := by
  have hsuffix : 37 ∉ m.suffix := by cases m <;> simp only [Metric.suffix] <;> decide
  have hcolon : 37 ∉ text ":" := by decide
  have hbar : 37 ∉ text "|" := by decide
  apply List.count_eq_zero.mpr
  simp only [List.mem_append, not_or]
  exact ⟨hcolon, h, hbar, hsuffix⟩

theorem count_behind_name (m : Metric) :
    (text ":" ++ (m.printed ++ (text "|" ++ m.suffix))).count 37 = 0 := by
  apply count_suffix
  unfold Metric.printed
  split
  · exact notMem_decimalInt (by decide) _
  · exact notMem_decimalInt (by decide) (unsigned64 m.value : Int)

theorem count_datagram (pre : Bytes) (m : Metric) :
    (datagram pre m).count 37 = pre.count 37 + m.name.count 37 := by
  have hdot : (text ".").count 37 = 0 := by decide
  have hrest := count_suffix m (notMem_decimalInt (c := 37) (by decide) m.value)
  rw [datagram, List.count_append, List.count_append, List.count_append, hdot, hrest]
  omega

section Exact

variable {pre : Bytes} {m : Metric}

/-- A prefix that is only text stands in front of the rest. -/
theorem send_plain (hpercent : 37 ∉ pre) (hnul : 0 ∉ pre) (hname : 0 ∉ m.name) :
    snprintf (cString ((Statsd.construct pre).front ++ m.mask))
        [.string (cString m.name), .word m.value] =
      some (pre ++ (text "." ++ (m.name ++ (text ":" ++
        (m.printed ++ (text "|" ++ m.suffix)))))) := by
  have hmask : 0 ∉ m.mask := by cases m <;> simp only [Metric.mask] <;> decide
  have hdot : 0 ∉ text "." ∧ 37 ∉ text "." := by decide
  have hformat : 0 ∉ pre ++ text "." ++ m.mask := by
    simp only [List.mem_append, not_or]
    exact ⟨⟨hnul, hdot.1⟩, hmask⟩
  have hfront : 37 ∉ pre ++ text "." := by
    rw [List.mem_append, not_or]
    exact ⟨hpercent, hdot.2⟩
  rw [Statsd.construct, cString_of_notMem hformat, cString_of_notMem hname,
    snprintf_append hfront, snprintf_mask]
  simp

theorem ExactDatagram.printed (h : ExactDatagram pre m) :
    snprintf (cString ((Statsd.construct pre).front ++ m.mask))
      [.string (cString m.name), .word m.value] = some (datagram pre m) := by
  obtain ⟨d, hd, rfl, -⟩ := h
  rw [send_eq] at hd
  exact sendStat_datagram hd

theorem ExactDatagram.nulFree (h : ExactDatagram pre m) : 0 ∉ pre := by
  have hargs : ∀ arg ∈ [Arg.string (cString m.name), Arg.word m.value], Arg.NulFree arg := by
    simp only [List.forall_mem_cons]
    exact ⟨zero_notMem_cString m.name, trivial, fun arg harg => absurd harg List.not_mem_nil⟩
  have hout := printFrom_nulFree (zero_notMem_cString _) hargs h.printed
  intro hmem
  exact hout (List.mem_append_left _ hmem)

theorem ExactDatagram.percentFree (h : ExactDatagram pre m) (hname : 0 ∉ m.name) : 37 ∉ pre := by
  have hnul := h.nulFree
  have hprinted := h.printed
  obtain ⟨back, hmask⟩ := exists_mask m
  have hmaskNul : 0 ∉ m.mask := by cases m <;> simp only [Metric.mask] <;> decide
  have hdot : text "." = [46] := by decide
  have hformat : 0 ∉ pre ++ text "." ++ m.mask := by
    simp only [List.mem_append, not_or]
    exact ⟨⟨hnul, by decide⟩, hmaskNul⟩
  have hcut : pre ++ text "." ++ m.mask = pre ++ 46 :: 37 :: 115 :: back := by
    rw [hmask, hdot, List.append_assoc]
    rfl
  rw [Statsd.construct, cString_of_notMem hformat, cString_of_notMem hname, hcut] at hprinted
  have hback : ∀ out, printFrom .none (46 :: 37 :: 115 :: back) [.string m.name, .word m.value] =
      some out → out.count 37 = m.name.count 37 := by
    intro out hout
    have hmasked := snprintf_mask m m.name
    rw [hmask] at hmasked
    have hne : (46 : UInt8) ≠ 37 := by decide
    have hliteral := snprintf_literal hne (37 :: 115 :: back) [.string m.name, .word m.value]
    rw [hmasked] at hliteral
    obtain rfl := Option.some.inj (hliteral.symm.trans hout)
    rw [List.count_cons_of_ne hne, List.count_append, count_behind_name]
    exact Nat.add_zero _
  obtain ⟨-, hcount⟩ := printFrom_count hback hprinted
  have htotal := count_datagram pre m
  rw [if_pos rfl] at hcount
  intro hmem
  have hpos := List.count_pos_iff.mpr hmem
  omega

end Exact

/-- **Datagrams carry the exact metric** if and only if the prefix has no percent sign
and no NUL, and a counter or set has a value that fits an `int`. -/
theorem datagram_exact_iff (pre : Bytes) (m : Metric) (hname : 0 ∉ m.name) (hvalue : m.Declared)
    (hlen : (datagram pre m).length < maxBufferSize) :
    ExactDatagram pre m ↔
      37 ∉ pre ∧ 0 ∉ pre ∧ (m.signed = true → -2 ^ 31 ≤ m.value ∧ m.value < 2 ^ 31) := by
  constructor
  · intro h
    have hpercent := h.percentFree hname
    have hprinted := h.printed
    rw [send_plain hpercent h.nulFree hname] at hprinted
    refine ⟨hpercent, h.nulFree, (printed_eq_iff hvalue).mp ?_⟩
    have hout := Option.some.inj hprinted
    simp only [datagram, List.append_cancel_left_eq, List.append_cancel_right_eq] at hout
    exact hout
  · intro h
    obtain ⟨hpercent, hnul, hrange⟩ := h
    refine ⟨datagram pre m, ?_, rfl, parse_datagram pre m⟩
    have hprinted := send_plain hpercent hnul hname
    rw [(printed_eq_iff hvalue).mpr hrange] at hprinted
    have hfits : ¬ ((datagram pre m).length = 0 ∨ maxBufferSize ≤ (datagram pre m).length) := by
      have hdot : (text ".").length = 1 := rfl
      have hpos : 0 < (datagram pre m).length := by
        simp only [datagram, List.length_append, hdot]
        omega
      omega
    rw [send_eq, Statsd.sendStat, hprinted]
    exact if_neg hfits

theorem datagram_exact_requests :
    ExactDatagram (text "quitsies") (.counter (text "requests") 42) ↔
      37 ∉ text "quitsies" ∧ 0 ∉ text "quitsies" ∧
        ((Metric.counter (text "requests") 42).signed = true →
          -2 ^ 31 ≤ (Metric.counter (text "requests") 42).value ∧
            (Metric.counter (text "requests") 42).value < 2 ^ 31) :=
  datagram_exact_iff (text "quitsies") (.counter (text "requests") 42) (by decide) (by decide)
    (by decide)

/-- A counter of 2 ^ 31 is sent as a negative number, and a percent sign in the prefix
is a directive. -/
theorem datagram_wrong :
    (Statsd.construct (text "q")).send (.counter (text "n") 2147483648) =
        .datagram (text "q.n:-2147483648|c") ∧
      ¬ ExactDatagram (text "q") (.counter (text "n") 2147483648) ∧
      (Statsd.construct (text "100%%")).send (.gauge (text "n") 1) =
        .datagram (text "100%.n:1|g") ∧
      ¬ ExactDatagram (text "100%%") (.gauge (text "n") 1) ∧
      (Statsd.construct (text "%s")).send (.gauge (text "n") 1) = .undefined := by
  have hcounter : (Statsd.construct (text "q")).send (.counter (text "n") 2147483648) =
      .datagram (text "q.n:-2147483648|c") := by decide
  have hgauge : (Statsd.construct (text "100%%")).send (.gauge (text "n") 1) =
      .datagram (text "100%.n:1|g") := by decide
  refine ⟨hcounter, fun h => ?_, hgauge, fun h => ?_, by decide⟩
  · obtain ⟨d, hd, rfl, -⟩ := h
    rw [hcounter] at hd
    exact absurd hd (by decide)
  · obtain ⟨d, hd, rfl, -⟩ := h
    rw [hgauge] at hd
    exact absurd hd (by decide)

end Quitsies.Stats
