import Quitsies.Tcp.Asio
import Quitsies.Tcp.Invariant

/-!
# What the byte limit bounds

The limit is checked against a chunk and the token that is being collected, so it is no
limit on a request. It does bound what a request holds of one token: every key and every
payload that reaches the store is shorter than the limit, however the bytes come in.
-/

namespace Quitsies.Tcp

open Text Interaction Db

/-- No string of the call has `m` bytes. -/
def CallBelow (m : Nat) : StoreCall → Prop
  | .get key => key.length < m
  | .del key => key.length < m
  | .put key value => key.length < m ∧ value.length < m
  | .lock => True
  | .unlock => True

/-- No token that the request holds has `m` bytes. -/
structure WithinLimit (m : Nat) (r : Request) : Prop where
  buffer : r.buffer.length < m
  keys : ∀ key ∈ r.keys, key.length < m

/-! ## The calls of an answer -/

section Answer

variable {m : Nat} {r : Request}

theorem retrieve_below (f : Bytes → Bytes) {keys : List Bytes} (h : ∀ key ∈ keys, key.length < m) :
    (Attempt.run (f <$> retrieve keys) errorLine).Calls (CallBelow m) := by
  induction keys generalizing f with
  | nil => trivial
  | cons key keys ih =>
    obtain ⟨hkey, hkeys⟩ := List.forall_mem_cons.mp h
    rw [run_retrieve_cons]
    refine ⟨hkey, fun res => ?_⟩
    rcases res with what | sv
    · trivial
    · exact ih _ hkeys

/-- A request is answered with calls on its keys and its payload. -/
theorem prepareResponse_below (h : WithinLimit m r) :
    (prepareResponse r).Calls (CallBelow m) := by
  by_cases hping : r.command = .ping
  · rw [prepareResponse_ping hping]
    trivial
  cases hdb : r.db with
  | false =>
    simp only [prepareResponse, hping, hdb]
    trivial
  | true =>
    cases hk : r.keys with
    | nil =>
      simp only [prepareResponse, hping, hdb, hk]
      trivial
    | cons key keys =>
      have hkey : key.length < m := h.keys key (hk ▸ List.mem_cons_self)
      have hretrieve : (Attempt.run (retrieve r.keys) errorLine).Calls (CallBelow m) := by
        have hcalls := retrieve_below id h.keys
        rwa [id_map] at hcalls
      cases hc : r.command with
      | set =>
        rw [prepareResponse_set hdb hk hc]
        exact ⟨⟨hkey, h.buffer⟩, fun _ => trivial⟩
      | add =>
        rw [prepareResponse_add hdb hk hc]
        refine ⟨trivial, fun _ => ⟨hkey, fun res => ?_⟩⟩
        rcases res with what | ⟨s, v⟩
        · trivial
        dsimp only
        split
        · exact ⟨trivial, fun _ => trivial⟩
        split
        · refine ⟨⟨hkey, h.buffer⟩, fun res => ?_⟩
          rcases res with what | s
          · trivial
          · exact ⟨trivial, fun _ => trivial⟩
        · exact ⟨trivial, fun _ => trivial⟩
      | delete =>
        rw [prepareResponse_delete hdb hk hc]
        refine ⟨hkey, fun res => ?_⟩
        rcases res with what | ⟨s, v⟩
        · trivial
        dsimp only
        split
        · refine ⟨hkey, fun res => ?_⟩
          rcases res with what | s <;> trivial
        · trivial
      | get =>
        rw [prepareResponse_retrieval hdb hk (.inl hc)]
        exact hretrieve.map _
      | gets =>
        rw [prepareResponse_retrieval hdb hk (.inr hc)]
        exact hretrieve.map _
      | ping => exact absurd hc hping
      | quit | none =>
        rw [prepareResponse_of_key hdb hk hping]
        simp only [respond, hc]
        trivial

end Answer

/-! ## One byte -/

section Bytes

variable {m : Nat} {r : Request}

/-- A request that has at most one byte more in its buffer. -/
structure Grown (m : Nat) (r r' : Request) : Prop where
  bounded : WithinLimit m r'
  buffer : r'.buffer.length ≤ r.buffer.length + 1

theorem WithinLimit.cleared (h : WithinLimit m r) {r' : Request} (hb : r'.buffer = [])
    (hk : r'.keys = r.keys) : Grown m r r' := by
  have hpos := h.buffer
  refine ⟨⟨?_, hk ▸ h.keys⟩, ?_⟩ <;> rw [hb, List.length_nil] <;> omega

theorem WithinLimit.kept (h : WithinLimit m r) {r' : Request} (hb : r'.buffer = r.buffer)
    (hk : r'.keys = r.keys) : Grown m r r' :=
  ⟨⟨hb ▸ h.buffer, hk ▸ h.keys⟩, by rw [hb]; omega⟩

theorem pushKey_within (h : WithinLimit m r) (status : StatusType) :
    (pushKey r status).Meets (Grown m r) (WithinLimit m) (WithinLimit m) := by
  have hpos := h.buffer
  unfold pushKey
  split
  · exact h
  · refine ⟨⟨?_, ?_⟩, Nat.zero_le _⟩
    · show 0 < m
      omega
    · intro key hkey
      rcases List.mem_append.mp hkey with hold | hnew
      · exact h.keys key hold
      · exact List.mem_singleton.mp hnew ▸ h.buffer

theorem onWhiteSpace_within (h : WithinLimit m r) :
    (onWhiteSpace r).Meets (Grown m r) (WithinLimit m) (WithinLimit m) := by
  cases hs : r.status <;> simp only [onWhiteSpace, hs]
  case command =>
    have hempty : ([] : Bytes).length < m := Nat.lt_of_le_of_lt (Nat.zero_le _) h.buffer
    split
    · exact ⟨hempty, h.keys⟩
    · split
      · exact ⟨hempty, h.keys⟩
      · exact h.cleared rfl rfl
  case deleteKey => exact pushKey_within h _
  case storageKey => exact pushKey_within h _
  case norep =>
    split
    · exact h.cleared rfl rfl
    · split
      · exact h.kept rfl rfl
      · exact h
  case retrievalKey =>
    split
    · exact h
    · exact pushKey_within h _
  case retrievalKeys =>
    split
    · exact h
    · exact pushKey_within h _
  case data => exact h.kept rfl rfl
  case finished => exact h.kept rfl rfl
  case quitting => exact h.kept rfl rfl
  -- the fields that hold a number
  all_goals
    split
    · exact h
    · exact h.cleared rfl rfl

theorem onByte_within (h : WithinLimit m r) (hroom : r.buffer.length + 1 < m) (c : UInt8) :
    (onByte r c).Meets (Grown m r) (WithinLimit m) (WithinLimit m) := by
  have hsnoc : (r.buffer ++ [c]).length = r.buffer.length + 1 := List.length_append
  by_cases hdata : r.status = .data
  · by_cases hpos : 0 < r.remaining
    · rw [onByte_payload hdata hpos]
      exact ⟨⟨hsnoc ▸ hroom, h.keys⟩, Nat.le_of_eq hsnoc⟩
    · rw [onByte_payload_end hdata (Nat.eq_zero_of_not_pos hpos)]
      exact h
  · cases hc : isWhiteSpace c with
    | true =>
      rw [onByte_whiteSpace hdata hc]
      exact onWhiteSpace_within h
    | false =>
      rw [onByte_token hdata hc]
      exact ⟨⟨hsnoc ▸ hroom, h.keys⟩, Nat.le_of_eq hsnoc⟩

/-! ## Whole calls -/

/-- What a call of `process` makes of the store and leaves. -/
structure Kept (m : Nat) (p : StoreProg Request) : Prop where
  calls : p.Calls (CallBelow m)
  returns : p.Returns (WithinLimit m)

theorem prepareResponse_kept (h : WithinLimit m r) : Kept m (prepareResponse r) := by
  refine ⟨prepareResponse_below h, (prepareResponse_returns r).mono fun q hq => ?_⟩
  obtain ⟨response, rfl⟩ := hq
  exact ⟨h.buffer, h.keys⟩

/-- A chunk that there is room for. -/
theorem loop_kept (h : WithinLimit m r) {data : Bytes} (hroom : r.buffer.length + data.length < m) :
    Kept m (loop r data) := by
  induction data generalizing r with
  | nil => exact ⟨trivial, h⟩
  | cons c data ih =>
    rw [List.length_cons] at hroom
    have hc := onByte_within h (by omega) c
    simp only [loop]
    cases hb : onByte r c with
    | next r' =>
      rw [hb] at hc
      have hgrown := hc.buffer
      exact ih hc.bounded (by omega)
    | respond r' =>
      rw [hb] at hc
      exact prepareResponse_kept hc
    | throw r' what =>
      rw [hb] at hc
      exact ⟨trivial, hc.buffer, hc.keys⟩

theorem process_kept (h : WithinLimit m r) (hm : 0 < m) (hlimit : r.maxBytes = m) (data : Bytes) :
    Kept m (process r data) := by
  cases hx : r.exceeds data.length with
  | true =>
    rw [process, if_pos hx]
    exact ⟨trivial, h.buffer, h.keys⟩
  | false =>
    rw [process, hx]
    refine loop_kept h ?_
    simp only [Request.exceeds, hlimit, hm, decide_true, Bool.true_and, decide_eq_false_iff_not]
      at hx
    omega

end Bytes

theorem Reachable.maxBytes {db : Bool} {m : Nat} {r : Request} (h : Reachable db m r) :
    r.maxBytes = m := by
  induction h with
  | fresh command => rfl
  | process _ hp ih => exact (Connection.process_config hp).2.trans ih
  | reset _ ih => exact ih

theorem Reachable.bounded {db : Bool} {m : Nat} {r : Request} (h : Reachable db m r)
    (hm : 0 < m) : WithinLimit m r := by
  induction h with
  | fresh command => exact ⟨hm, nofun⟩
  | process hr hp ih => exact (process_kept ih hm hr.maxBytes _).returns.of_performs hp
  | reset _ _ => exact ⟨hm, nofun⟩

/-- **The limit bounds what is stored**: with a limit, no key that a request holds and no
key or value of a call that it makes of the store is as long as the limit. -/
theorem bounded_by_limit {db : Bool} {m : Nat} {r : Request} (h : Reachable db m r) (hm : 0 < m) :
    r.buffer.length < m ∧ (∀ key ∈ r.keys, key.length < m) ∧
      ∀ data events q, (process r data).Performs events q → ∀ e ∈ events, CallBelow m e.1 := by
  have hbounded := h.bounded hm
  refine ⟨hbounded.buffer, hbounded.keys, fun data events q hp => ?_⟩
  exact ((process_kept hbounded hm h.maxBytes data).calls.reaches hp).1

/-- A payload of four bytes, under a limit of nine. -/
theorem bounded_by_limit_set :
    ∃ r, Reachable true 9 r ∧ r.buffer = text "v" ∧ r.buffer.length < 9 ∧
      (∀ key ∈ r.keys, key.length < 9) ∧
      ∀ data events q, (process r data).Performs events q → ∀ e ∈ events, CallBelow 9 e.1 := by
  have h₀ : Reachable true 9 (.fresh true 9 .none) := .fresh .none
  have h₁ : Reachable true 9 _ := h₀.process
    (Prog.performs_runWith mapStore (process _ (text "set k ")) fun _ => none)
  have h₂ : Reachable true 9 _ := h₁.process
    (Prog.performs_runWith mapStore (process _ (text "0 0 4\r\n")) fun _ => none)
  have h₃ : Reachable true 9 _ := h₂.process
    (Prog.performs_runWith mapStore (process _ (text "v")) fun _ => none)
  exact ⟨_, h₃, by decide, bounded_by_limit h₃ (by decide)⟩

end Quitsies.Tcp
