import Viiwork.Lib.Recent
import Viiwork.Route.Warm

/-!
# Viiwork.Route.Memory

The session memory (`lastHosts` of `warm.go`) is an exact LRU. Whatever the calls were, it holds the
last nodes of the sessions that were set most recently (`Sound.set`), and its map and its list stay
one (`Sound`): an element is found by its session exactly as by its pointer.
-/

namespace Viiwork.Route

open Viiwork.Lib List

/-- A call of the session memory. -/
inductive MemoryCall
  | get (ref : SessionRef)
  | set (ref : SessionRef) (node : String)

/-- What a call sets. -/
def MemoryCall.sets : MemoryCall → Option (Σ _ : SessionRef, String)
  | get _ => none
  | set ref node => some ⟨ref, node⟩

namespace LastHosts

/-- The memory of a new router after the calls, the latest first. A `get` changes nothing. -/
def after : List MemoryCall → LastHosts
  | [] => ⟨fun _ => none, [], 0⟩
  | .get _ :: calls => after calls
  | .set ref node :: calls => (after calls).set ref node

/-- What is remembered, the most recent first. -/
def held (l : LastHosts) : List (Σ _ : SessionRef, String) := l.order.map fun e => ⟨e.ref, e.node⟩

@[simp] theorem length_held (l : LastHosts) : l.held.length = l.order.length := length_map _

/-- The map has the elements of the list, by their sessions. -/
structure Sound (l : LastHosts) : Prop where
  maps : ∀ ref id, l.byRef ref = some id ↔ ∃ e ∈ l.order, e.ref = ref ∧ e.id = id
  ids : (l.order.map LastHost.id).Nodup
  fresh : ∀ e ∈ l.order, e.id < l.nextId

variable {l : LastHosts} {ref : SessionRef} {node : String} {e : LastHost} (h : l.Sound)

section

include h

theorem Sound.byRef_of_mem (he : e ∈ l.order) : l.byRef e.ref = some e.id :=
  (h.maps e.ref e.id).2 ⟨e, he, rfl, rfl⟩

theorem Sound.refs : (l.order.map LastHost.ref).Nodup := by
  refine h.ids.of_map.map_on fun d hd e he href => ?_
  refine inj_on_of_nodup_map h.ids hd he (Option.some.inj ?_)
  rw [← h.byRef_of_mem hd, href, h.byRef_of_mem he]

theorem Sound.find (he : e ∈ l.order) : (l.order.find? fun d => d.id == e.id) = some e := by
  cases hd : l.order.find? fun d => d.id == e.id with
  | none => simpa using find?_eq_none.1 hd e he
  | some d =>
    rw [inj_on_of_nodup_map h.ids (mem_of_find?_eq_some hd) he (by simpa using find?_some hd)]

theorem Sound.get_iff : l.get ref = some node ↔ ⟨ref, node⟩ ∈ l.held := by
  constructor
  · intro hget
    obtain ⟨id, hid, hget⟩ := Option.bind_eq_some_iff.1 hget
    obtain ⟨e, he, rfl, rfl⟩ := (h.maps ref id).1 hid
    rw [h.find he] at hget
    cases hget
    exact mem_map_of_mem he
  · intro hmem
    obtain ⟨e, he, heq⟩ := mem_map.1 hmem
    cases heq
    simp [get, h.byRef_of_mem he, h.find he]

/-- The cut takes the oldest session out of both. -/
theorem Sound.evict (hlen : l.order.length ≤ sessionMemory + 1) :
    l.evict.Sound ∧ l.evict.held = l.held.take sessionMemory := by
  unfold LastHosts.evict
  split
  · rename_i hlt
    have hfull : l.order.length - 1 = sessionMemory := by omega
    cases hlast : l.order.getLast? with
    | none => simp [getLast?_eq_none_iff.1 hlast] at hlt
    | some old =>
      have horder := dropLast_append_getLast? old hlast
      have hrefs := h.refs
      refine ⟨⟨fun ref id => ?_, ?_, ?_⟩, ?_⟩
      · have hmaps := h.maps ref id
        rw [← horder] at hmaps hrefs
        simp only [Function.update_apply]
        grind
      · exact ((dropLast_sublist _).map _).nodup h.ids
      · exact fun e he => h.fresh e (mem_of_mem_dropLast he)
      · rw [held, dropLast_eq_take, hfull, map_take]
        rfl
  · rename_i hle
    refine ⟨h, (take_of_length_le ?_).symm⟩
    rw [length_held]
    exact not_lt.1 hle

/-- **Step lemma.** A set moves the session to the front and cuts the list. -/
theorem Sound.set (hlen : l.order.length ≤ sessionMemory) (ref : SessionRef) (node : String) :
    (l.set ref node).Sound ∧
      (l.set ref node).held = (l.held.kinsert ref node).take sessionMemory := by
  unfold LastHosts.set
  cases hid : l.byRef ref with
  | some id =>
    obtain ⟨old, hold, rfl, rfl⟩ := (h.maps ref id).1 hid
    simp only [h.find hold]
    obtain ⟨newer, older, horder⟩ := append_of_mem hold
    have hids := h.ids
    have hrefs := h.refs
    rw [horder, map_append, map_cons, nodup_middle, nodup_cons, ← map_append] at hids hrefs
    have hfilter : l.order.filter (fun d => d.id != old.id) = newer ++ older := by
      rw [horder, filter_append, filter_cons_of_neg (by simp), ← filter_append, filter_eq_self]
      intro d hd
      exact bne_iff_ne.2 fun heq => hids.1 (heq ▸ mem_map_of_mem hd)
    rw [hfilter]
    refine ⟨⟨fun ref id => ?_, nodup_cons.2 hids, ?_⟩, ?_⟩
    · rw [h.maps, horder]
      simp [or_and_right, exists_or, or_left_comm]
    · have hfresh := h.fresh
      rw [horder] at hfresh
      grind
    · have herase : l.held.kerase old.ref = (newer ++ older).map fun e => ⟨e.ref, e.node⟩ := by
        rw [held, horder, map_append, kerase_append_right, map_append]
        · simp
        · rw [keys, map_map]
          exact fun hmem => hrefs.1 (map_append ▸ mem_append_left _ hmem)
      rw [kinsert_def, herase, take_of_length_le, held, map_cons]
      simpa [horder, ← add_assoc] using hlen
  | none =>
    have hno : ref ∉ l.held.keys := by
      rw [keys, held, map_map]
      intro hmem
      obtain ⟨e, he, rfl⟩ := mem_map.1 hmem
      cases (h.byRef_of_mem he).symm.trans hid
    have hnew : Sound ⟨Function.update l.byRef ref (some l.nextId),
        ⟨l.nextId, ref, node⟩ :: l.order, l.nextId + 1⟩ := by
      refine ⟨fun r i => ?_, ?_, ?_⟩
      · have hmaps := h.maps r i
        simp only [Function.update_apply, mem_cons, exists_eq_or_imp]
        grind
      · refine nodup_cons.2 ⟨fun hmem => ?_, h.ids⟩
        obtain ⟨e, he, heq⟩ := mem_map.1 hmem
        exact (h.fresh e he).ne heq
      · simp only [mem_cons, forall_eq_or_imp]
        exact ⟨Nat.lt_succ_self _, fun e he => (h.fresh e he).trans (Nat.lt_succ_self _)⟩
    obtain ⟨hsound, hheld⟩ := hnew.evict (Nat.succ_le_succ hlen)
    refine ⟨hsound, hheld.trans ?_⟩
    rw [kinsert_def, kerase_of_notMem_keys hno]
    rfl

end

/-- **Run lemma.** -/
theorem held_after (calls : List MemoryCall) :
    (after calls).Sound ∧ (after calls).order.length ≤ sessionMemory ∧
      (after calls).held = (dedupKeys (calls.filterMap MemoryCall.sets)).take sessionMemory := by
  fun_induction after with
  | case1 => exact ⟨⟨by simp, .nil, by simp⟩, Nat.zero_le _, rfl⟩
  | case2 ref calls ih => exact ih
  | case3 ref node calls ih =>
    obtain ⟨hsound, hlen, hheld⟩ := ih
    obtain ⟨hsound', hheld'⟩ := hsound.set hlen ref node
    rw [hheld, take_kinsert] at hheld'
    refine ⟨hsound', ?_, hheld'⟩
    rw [← length_held, hheld']
    exact length_take_le _ _

end LastHosts

/-- **Session memory is an exact LRU.** After any calls the map and the list hold the same sessions,
each once and never more than `sessionMemory`; and a session is remembered, with the node of its
latest `set`, exactly when fewer than `sessionMemory` others were set since. -/
theorem session_memory_exact (calls : List MemoryCall) :
    let l := LastHosts.after calls
    (∀ ref, (l.byRef ref).isSome = true ↔ ref ∈ l.order.map LastHost.ref) ∧
      (l.order.map LastHost.ref).Nodup ∧ l.order.length ≤ sessionMemory ∧
      ∀ ref node, l.get ref = some node ↔ ∃ since before,
        calls.filterMap MemoryCall.sets = since ++ ⟨ref, node⟩ :: before ∧ ref ∉ since.keys ∧
          since.keys.toFinset.card < sessionMemory := by
  intro l
  obtain ⟨hsound, hlen, hheld⟩ : l.Sound ∧ _ := LastHosts.held_after calls
  refine ⟨fun ref => ?_, hsound.refs, hlen, fun ref node => ?_⟩
  · simp only [Option.isSome_iff_exists, hsound.maps, mem_map]
    exact ⟨fun ⟨_, e, he, href, _⟩ => ⟨e, he, href⟩, fun ⟨e, he, href⟩ => ⟨e.id, e, he, href, rfl⟩⟩
  · rw [hsound.get_iff, hheld, mem_take_dedupKeys_iff]

end Viiwork.Route
