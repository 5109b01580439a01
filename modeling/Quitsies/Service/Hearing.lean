import Quitsies.Service.Refinement
import Quitsies.Tcp.Transcript

/-!
# Any bytes and a map

What a connection hears, done over a RocksDB that acts as a map. Whatever bytes a
client sends, the grammar says which commands they are, the map answers the commands,
and the lines of these answers are what is written.
-/

namespace Quitsies.Service

open Text Interaction Db Tcp Reference

/-- What a request that was heard demands of the map, if it demands anything. -/
def demands : Asked → Option Command
  | .store .set key value => some (.bind key value)
  | .store .add key value => some (.bindFresh key value)
  | .delete key => some (.unbind key)
  | .retrieve (key :: keys) => some (.list (key :: keys))
  | .retrieve [] => none
  | .ping => none
  | .refused _ => none

/-- The response to a request that demands nothing. -/
def remark : Asked → Bytes
  | .ping => pong
  | .refused what => clientErrorLine what
  | _ => text "ERROR No key was found in request\r\n"

/-- A request by the map alone: the line that answers it and the map after it. -/
def attend (m : Contents) (asked : Asked) : Bytes × Contents :=
  match demands asked with
  | some c => ((step m c).1.line, (step m c).2)
  | none => (remark asked, m)

/-- The lines that answer what was heard, without those of silent requests, and the map
in the end. -/
def attendAll : List (Asked × Bool) → Contents → List Bytes × Contents
  | [], m => ([], m)
  | (asked, noreply) :: heard, m =>
    let (line, m) := attend m asked
    let (lines, m) := attendAll heard m
    ((if noreply then [] else [line]) ++ lines, m)

/-- Keys that nothing heard may change are left as they are. -/
theorem attendAll_frame {heard : List (Asked × Bool)} {key : Bytes}
    (h : ∀ asked ∈ heard, ∀ c, demands asked.1 = some c → c.target ≠ some key) (m : Contents) :
    (attendAll heard m).2 key = m key := by
  induction heard generalizing m with
  | nil => rfl
  | cons asked heard ih =>
    obtain ⟨hasked, hheard⟩ := List.forall_mem_cons.mp h
    have hone : (attend m asked.1).2 key = m key := by
      cases hd : demands asked.1 with
      | some c =>
        simp only [attend, hd]
        exact step_frame m (hasked c hd)
      | none => simp only [attend, hd]
    exact (ih hheard (attend m asked.1).2).trans hone

/-- A response over a map. -/
theorem response_mapStore (m : Contents) {q : Request} (h : (Operation.tcp q).Parsed) :
    let run := (Request.response <$> prepareResponse q).runWith mapStore m
    run.1 = (step m (Operation.tcp q).command).1.line ∧
      run.2.2 = (step m (Operation.tcp q).command).2 := by
  obtain ⟨hanswered, hstate⟩ := prepareResponse_mapStore m h
  simp only [Prog.runWith_map]
  exact ⟨congrArg Request.response hanswered, hstate⟩

/-- One request over a map. -/
theorem answer_mapStore (m : Contents) (asked : Asked) :
    let run := (asked.answer true).runWith mapStore m
    run.1 = (attend m asked).1 ∧ run.2.2 = (attend m asked).2 := by
  cases asked with
  | ping => exact ⟨rfl, rfl⟩
  | refused what => exact ⟨rfl, rfl⟩
  | retrieve keys =>
    cases keys with
    | nil => exact ⟨rfl, rfl⟩
    | cons key keys =>
      exact response_mapStore m ⟨rfl, List.cons_ne_nil _ _, .inr (.inr (.inr (.inl rfl)))⟩
  | delete key => exact response_mapStore m ⟨rfl, List.cons_ne_nil _ _, .inr (.inr (.inl rfl))⟩
  | store kind key value =>
    cases kind with
    | set => exact response_mapStore m ⟨rfl, List.cons_ne_nil _ _, .inl rfl⟩
    | add => exact response_mapStore m ⟨rfl, List.cons_ne_nil _ _, .inr (.inl rfl)⟩

theorem replies_mapStore (heard : List (Asked × Bool)) (m : Contents) :
    let run := (replies true heard).runWith mapStore m
    run.1 = (attendAll heard m).1 ∧ run.2.2 = (attendAll heard m).2 := by
  induction heard generalizing m with
  | nil => exact ⟨rfl, rfl⟩
  | cons asked heard ih =>
    obtain ⟨asked, noreply⟩ := asked
    obtain ⟨hline, hstate⟩ := answer_mapStore m asked
    obtain ⟨hlines, hstate'⟩ := ih (attend m asked).2
    simp only [replies, Prog.runWith_bind, hline, hstate, hlines, hstate', attendAll]
    exact ⟨rfl, rfl⟩

/-- What is seen of a connection over any store, by what was heard. -/
theorem seen_replies {σ : Type} (store : σ → (c : StoreCall) → StoreResult c × σ)
    (command : CommandType) {reads : List Bytes} {heard : List (Asked × Bool)} {quit : Bool}
    (h : Heard [] reads heard quit) (start : σ) :
    let s := Session.accepted ((Server.construct true).accept command)
    let run := (s.serve reads).runWith store start
    let run' := (replies true heard).runWith store start
    run.1.seen = (run'.1, quit) ∧ run.2.2 = run'.2.2 := by
  have hserve := congrArg (Prog.runWith store · start) (accepted_heard true command h)
  simp only [Prog.runWith_map, Prod.mk.injEq] at hserve
  exact ⟨hserve.1, congrArg Prod.snd hserve.2⟩

/-- **Any bytes.** Whatever a client sends, in whatever reads, to a server that was
given a RocksDB that acts as a map, the responses that are written are those of the map
to what was heard, the RocksDB holds in the end what the map holds, and keys that
nothing heard may change are left as they were. -/
theorem bytes_refine_map {σ : Type} {rocksdb : σ → (c : RocksCall) → RocksResult c × σ}
    {contents : σ → Contents} (hdb : ActsAsMap rocksdb contents) (command : CommandType)
    (reads : List Bytes) (start : σ) :
    let s := Session.accepted ((Server.construct true).accept command)
    let run := ((s.serve reads).interpret rocks).runWith rocksdb start
    (∃ heard quit, Heard [] reads heard quit) ∧
      ∀ heard quit, Heard [] reads heard quit →
        run.1.seen = ((attendAll heard (contents start)).1, quit) ∧
        contents run.2.2 = (attendAll heard (contents start)).2 ∧
        ∀ key, (∀ asked ∈ heard, ∀ c, demands asked.1 = some c → c.target ≠ some key) →
          contents run.2.2 key = contents start key := by
  intro s run
  refine ⟨exists_heard [] reads, fun heard quit hheard => ?_⟩
  obtain ⟨hsession, hstate⟩ := Prog.runWith_interpret rocks rocksdb (s.serve reads) start
  obtain ⟨hsession', hstate'⟩ := hdb.simulates.runWith (s.serve reads) start
  obtain ⟨hseen, hmap⟩ := seen_replies mapStore command hheard (contents start)
  obtain ⟨hlines, hcontents⟩ := replies_mapStore heard (contents start)
  have hend : contents run.2.2 = (attendAll heard (contents start)).2 :=
    (congrArg contents hstate).trans (hstate'.trans (hmap.trans hcontents))
  refine ⟨?_, hend, fun key hkey => ?_⟩
  · calc run.1.seen
      _ = ((s.serve reads).runWith mapStore (contents start)).1.seen :=
        congrArg Session.seen (hsession.trans hsession')
      _ = _ := hseen.trans (congrArg (·, quit) hlines)
  · rw [hend, attendAll_frame hkey]

/-- A read with a silent `add` and a `quit` behind it, which is dropped, and one that
quits. -/
theorem bytes_refine_map_add :
    let s := Session.accepted ((Server.construct true).accept .none)
    let run := ((s.serve [text "add k 0 0 2 noreply x\nhi!quit\n", text "quit\n"]).interpret
      rocks).runWith mapRocks fun _ => none
    run.1.seen = ([], true) ∧ run.2.2 (text "k") = some (text "xhi") := by
  intro s run
  have hspelled : Words isWhiteSpace [text "quit"] (text "quit\n") :=
    .one (c := 10) (plain_of_all (by decide)) (by decide)
  have hheard : Heard [] [text "add k 0 0 2 noreply x\nhi!quit\n", text "quit\n"]
      [(.store .add (text "k") (text "xhi"), true)] true :=
    .sentence sentence_addToken (by decide) (.quit ⟨_, hspelled, by decide⟩)
  obtain ⟨hseen, hcontents, -⟩ :=
    (bytes_refine_map mapRocks_actsAsMap .none _ fun _ => none).2 _ _ hheard
  exact ⟨hseen, by rw [show run.2.2 = _ from hcontents]; decide⟩

end Quitsies.Service
