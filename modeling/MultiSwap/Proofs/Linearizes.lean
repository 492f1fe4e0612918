import MultiSwap.Call.OnList
import MultiSwap.Proofs.Operations

/-! Linearizations of a log. A linearization puts calls into an order that keeps to real time and in
which each of them, carried out at once on a plain list, gives the answer that it got in the run. -/

namespace MultiSwap

variable {σ α : Type}

/-- A call by the thread that made it and its number among the calls of that thread. -/
structure Op where
  thread : Nat
  number : Nat
  deriving DecidableEq, Repr

namespace Log

def call? (log : Log α) (o : Op) : Option (Call α) := (log.calls o.thread)[o.number]?

def answer? (log : Log α) (o : Op) : Option (Result α) := (log.answers o.thread)[o.number]?

/-- The call `a` was answered before the call `b` was made. -/
def Precedes (log : Log α) (a b : Op) : Prop :=
  ∃ log' : Log α, log' <+: log ∧ log'.answer? a ≠ none ∧ log'.call? b = none

variable {log log' : Log α}

theorem call?_mono (h : log <+: log') {o : Op} {c : Call α} (hc : log.call? o = some c) :
    log'.call? o = some c := by
  obtain ⟨more, rfl⟩ := h
  unfold call? at hc ⊢
  rw [calls_append, List.getElem?_append_left (List.getElem?_eq_some_iff.1 hc).1, hc]

theorem answer?_mono (h : log <+: log') {o : Op} {res : Result α}
    (ha : log.answer? o = some res) : log'.answer? o = some res := by
  obtain ⟨more, rfl⟩ := h
  unfold answer? at ha ⊢
  rw [answers_append, List.getElem?_append_left (List.getElem?_eq_some_iff.1 ha).1, ha]

theorem not_precedes_of_open {a b : Op} (ha : log.answer? a = none) : ¬ log.Precedes a b := by
  intro hprec
  obtain ⟨before, hp, hans, -⟩ := hprec
  obtain ⟨res, hres⟩ := Option.ne_none_iff_exists'.1 hans
  rw [answer?_mono hp hres] at ha
  simp at ha

theorem Precedes.restrict (h : log <+: log') {a b : Op} {c : Call α} (hb : log.call? b = some c)
    (hp : log'.Precedes a b) : log.Precedes a b := by
  obtain ⟨before, hbefore, ha, hnone⟩ := hp
  refine ⟨before, ?_, ha, hnone⟩
  refine (List.prefix_or_prefix_of_prefix hbefore h).resolve_right fun hlog => ?_
  rw [call?_mono hlog hb] at hnone
  simp at hnone

end Log

/-- A call in a sequence of calls, with the answer that it gives there. -/
structure Act (α : Type) where
  op : Op
  call : Call α
  result : Result α

variable [BEq α]

/-- Carried out in turn from `vs`, the calls give the answers listed with them, and leave `ws`. -/
def Replays (vs : List α) : List (Act α) → List α → Prop
  | [], ws => ws = vs
  | a :: acts, ws => (a.call.onList vs).2 = a.result ∧ Replays (a.call.onList vs).1 acts ws

section

variable {vs us ws : List α} {acts acts' : List (Act α)} {a : Act α}

theorem replays_append : Replays vs (acts ++ acts') ws ↔
    ∃ us, Replays vs acts us ∧ Replays us acts' ws := by
  induction acts generalizing vs with
  | nil => simp [Replays]
  | cons b rest ih => simp [Replays, ih, and_assoc]

theorem Replays.snoc (h : Replays vs acts us) (ha : a.call.onList us = (ws, a.result)) :
    Replays vs (acts ++ [a]) ws := by
  refine replays_append.2 ⟨us, h, ?_⟩
  simp [Replays, ha]

/-- A call that changes nothing can be carried out in between. -/
theorem Replays.insert (h : Replays vs acts us) (h' : Replays us acts' ws)
    (ha : a.call.onList us = (us, a.result)) : Replays vs (acts ++ a :: acts') ws := by
  refine replays_append.2 ⟨us, h, ?_⟩
  simp [Replays, ha, h']

theorem Replays.length_eq (h : Replays vs acts ws) : ws.length = vs.length := by
  induction acts generalizing vs with
  | nil => rw [h]
  | cons b rest ih => rw [ih h.2, Call.length_onList]

theorem Replays.eq (h : Replays vs acts us) (h' : Replays vs acts ws) : us = ws := by
  induction acts generalizing vs with
  | nil => exact h.trans h'.symm
  | cons b rest ih => exact ih h.2 h'.2

end

/-- Is the call carried out at one instant? Contents are read slot by slot. -/
def Call.isAtomic : Call α → Bool
  | contents _ => false
  | _ => true

structure Linearizes (log : Log α) (values : List α) (acts : List (Act α)) (final : List α) :
    Prop where
  distinct : (acts.map (·.op)).Nodup
  invoked : ∀ a ∈ acts, log.call? a.op = some a.call
  answered : ∀ o res, log.answer? o = some res →
    ∃ c, log.call? o = some c ∧ (c.isAtomic = true → ⟨o, c, res⟩ ∈ acts)
  realTime : acts.Pairwise fun a b => ¬ log.Precedes b.op a.op
  replays : Replays values acts final

namespace Linearizes

variable {log log' : Log α} {values vs : List α} {acts pre post : List (Act α)}

theorem nil (values : List α) : Linearizes [] values [] values :=
  ⟨by simp, by simp, by simp [Log.answer?, Log.answers], by simp, rfl⟩

theorem realTime_mono (h : Linearizes log values acts vs) (hp : log <+: log') :
    acts.Pairwise fun a b => ¬ log'.Precedes b.op a.op :=
  h.realTime.imp_of_mem fun ha _ hn hprec => hn (hprec.restrict hp (h.invoked _ ha))

theorem extend (h : Linearizes log values acts vs) (hp : log <+: log')
    (hans : ∀ o res, log'.answer? o = some res → log.answer? o = some res ∨
      ∃ c, log'.call? o = some c ∧ (c.isAtomic = true → ⟨o, c, res⟩ ∈ acts)) :
    Linearizes log' values acts vs := by
  refine ⟨h.distinct, ?_, ?_, h.realTime_mono hp, h.replays⟩
  · exact fun a ha => Log.call?_mono hp (h.invoked a ha)
  · intro o res ho
    rcases hans o res ho with ho | ho
    · obtain ⟨c, hc, hmem⟩ := h.answered o res ho
      exact ⟨c, Log.call?_mono hp hc, hmem⟩
    · exact ho

/-- A call that had no answer can be put before all calls that it does not follow. -/
theorem insert (h : Linearizes log values (pre ++ post) vs) (hp : log <+: log') {a : Act α}
    (hcall : log'.call? a.op = some a.call) (hnew : ∀ b ∈ pre ++ post, b.op ≠ a.op)
    (hopen : log.answer? a.op = none) (hpost : ∀ b ∈ post, ¬ log'.Precedes b.op a.op)
    (hans : ∀ o res, log'.answer? o = some res → log.answer? o = some res ∨
      o = a.op ∧ res = a.result) {ws : List α} (hr : Replays values (pre ++ a :: post) ws) :
    Linearizes log' values (pre ++ a :: post) ws := by
  have hmem {b : Act α} (hb : b ∈ pre ++ post) : b ∈ pre ++ a :: post := by
    rcases List.mem_append.1 hb with hb | hb
    · exact List.mem_append_left _ hb
    · exact List.mem_append_right _ (List.mem_cons_of_mem _ hb)
  have hperm : (pre ++ a :: post).Perm (a :: (pre ++ post)) := List.perm_middle
  refine ⟨?_, ?_, ?_, ?_, hr⟩
  · rw [(hperm.map (·.op)).nodup_iff, List.map_cons, List.nodup_cons]
    refine ⟨fun hin => ?_, h.distinct⟩
    obtain ⟨b, hb, he⟩ := List.mem_map.1 hin
    exact hnew b hb he
  · intro b hb
    rcases List.mem_cons.1 (hperm.mem_iff.1 hb) with rfl | hb
    · exact hcall
    · exact Log.call?_mono hp (h.invoked b hb)
  · intro o res ho
    rcases hans o res ho with ho | ⟨rfl, rfl⟩
    · obtain ⟨c, hc, hin⟩ := h.answered o res ho
      exact ⟨c, Log.call?_mono hp hc, fun hatomic => hmem (hin hatomic)⟩
    · exact ⟨a.call, hcall, fun _ => List.mem_append_right _ List.mem_cons_self⟩
  · obtain ⟨hpre, hpost', hcross⟩ := List.pairwise_append.1 (h.realTime_mono hp)
    refine List.pairwise_append.2 ⟨hpre, List.pairwise_cons.2 ⟨hpost, hpost'⟩, ?_⟩
    intro b hb b' hb'
    rcases List.mem_cons.1 hb' with rfl | hb'
    · intro hprec
      have hb := h.invoked b (List.mem_append_left _ hb)
      exact Log.not_precedes_of_open hopen (hprec.restrict hp hb)
    · exact hcross b hb b' hb'

end Linearizes

/-- At a point that is late enough for the call `o`, the words do not all hold. -/
def Misses (log : Log α) (values : List α) (acts : List (Act α)) (o : Op) (ws : List (Word α)) :
    Prop :=
  ∃ pre post us, acts = pre ++ post ∧ Replays values pre us ∧ Call.allHold ws us = false ∧
    ∀ b ∈ post, ¬ log.Precedes b.op o

namespace Misses

variable {log log' : Log α} {values us : List α} {acts pre post : List (Act α)} {o : Op}
  {ws : List (Word α)} {a : Act α}

theorem now (h : Replays values acts us) (hw : Call.allHold ws us = false) :
    Misses log values acts o ws :=
  ⟨acts, [], us, by simp, h, hw, by simp⟩

theorem extend (h : Misses log values acts o ws) (hp : log <+: log') {c : Call α}
    (hc : log.call? o = some c) : Misses log' values acts o ws := by
  obtain ⟨pre, post, us, he, hr, hw, hpost⟩ := h
  exact ⟨pre, post, us, he, hr, hw, fun b hb hprec => hpost b hb (hprec.restrict hp hc)⟩

theorem snoc (h : Misses log values acts o ws) (ha : ¬ log.Precedes a.op o) :
    Misses log values (acts ++ [a]) o ws := by
  obtain ⟨pre, post, us, rfl, hr, hw, hpost⟩ := h
  refine ⟨pre, post ++ [a], us, by simp, hr, hw, fun b hb => ?_⟩
  rcases List.mem_append.1 hb with hb | hb
  · exact hpost b hb
  · rwa [List.mem_singleton.1 hb]

theorem insert (h : Misses log values (pre ++ post) o ws)
    (hrun : post = [] ∨ ∃ us, Replays values pre us ∧ a.call.onList us = (us, a.result))
    (ha : ¬ log.Precedes a.op o) : Misses log values (pre ++ a :: post) o ws := by
  rcases hrun with rfl | ⟨us, hr, hrun⟩
  · rw [List.append_nil] at h
    exact h.snoc ha
  obtain ⟨pre', post', us', he, hr', hw, hpost⟩ := h
  rcases List.append_eq_append_iff.1 he with ⟨mid, rfl, rfl⟩ | ⟨mid, rfl, rfl⟩
  · -- the point is behind the call that is put in
    obtain ⟨vs, hvs, hmid⟩ := replays_append.1 hr'
    obtain rfl := hr.eq hvs
    exact ⟨pre ++ a :: mid, post', us', by simp, hr.insert hmid hrun, hw, hpost⟩
  · refine ⟨pre', mid ++ a :: post, us', by simp, hr', hw, fun b hb => ?_⟩
    rcases List.mem_append.1 hb with hb | hb
    · exact hpost b (List.mem_append_left _ hb)
    · rcases List.mem_cons.1 hb with rfl | hb
      · exact ha
      · exact hpost b (List.mem_append_right _ hb)

end Misses

end MultiSwap
