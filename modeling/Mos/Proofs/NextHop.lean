import Mos.Machine.Run
import Mos.Net.Neighbour

namespace Mos.Arp
open Machine List

/-! ### The update of a mapping -/

section Update
variable (macAddress : Mac) (ip : UInt32)

theorem listDel_eq {kept rest : List Neighbour} {nb : Neighbour}
    (nodup : ((kept ++ nb :: rest).map Neighbour.addr).Nodup) :
    listDel (kept ++ nb :: rest) nb.addr = some (kept ++ rest) := by
  have hk : ∀ x ∈ kept, ¬(x.addr == nb.addr) = true := by
    intro x hx he
    rw [map_append, map_cons, nodup_append] at nodup
    exact nodup.2.2 x.addr (mem_map_of_mem hx) nb.addr mem_cons_self (eq_of_beq he)
  unfold listDel
  rw [if_pos (by simp), eraseP_append_right _ hk]
  simp

theorem deletePrev_eq {kept rest : List Neighbour} {prev : Option Neighbour}
    (nodup : ((kept ++ (prev.toList ++ rest)).map Neighbour.addr).Nodup) :
    deletePrev (kept ++ (prev.toList ++ rest)) (prev.map Neighbour.addr) = some (kept ++ rest) := by
  cases prev with
  | none => rfl
  | some nb => exact listDel_eq nodup

theorem updateLoop_eq (rest kept : List Neighbour) (prev : Option Neighbour)
    (nodup : ((kept ++ (prev.toList ++ rest)).map Neighbour.addr).Nodup) :
    updateLoop macAddress ip rest (prev.map Neighbour.addr) (kept ++ (prev.toList ++ rest)) =
      some (kept ++ rest.filter (!replaced macAddress ip ·)) := by
  induction rest generalizing kept prev with
  | nil => exact deletePrev_eq nodup
  | cons nb rest ih =>
    have nodup' : ((kept ++ nb :: rest).map Neighbour.addr).Nodup := by
      refine nodup.sublist (List.Sublist.map _ (List.Sublist.append_left ?_ kept))
      exact sublist_append_right _ _
    unfold updateLoop
    rw [deletePrev_eq nodup]
    cases hr : replaced macAddress ip nb with
    | true =>
      rw [filter_cons_of_neg (by simp [hr])]
      exact ih kept (some nb) nodup'
    | false =>
      have happ : kept ++ nb :: rest = kept ++ [nb] ++ ((none : Option Neighbour).toList ++ rest) := by
        simp
      have hi := ih (kept ++ [nb]) none (by rw [← happ]; exact nodup')
      rw [← happ, append_assoc, singleton_append] at hi
      rw [filter_cons_of_pos (by simp [hr])]
      exact hi

end Update

structure Allocated (s : Stack) : Prop where
  nodup : (s.lneighbour.map Neighbour.addr).Nodup
  below : ∀ nb ∈ s.lneighbour, nb.addr < s.next

variable {s t : Stack}

theorem Allocated.listAddTail (a : Allocated s) (ha : Mac) (ip : UInt32) (dev : Nat) :
    Allocated (s.listAddTail ha ip dev) := by
  refine ⟨?_, ?_⟩
  · simp only [Stack.listAddTail, map_append, map_cons, map_nil]
    rw [nodup_append]
    refine ⟨a.nodup, nodup_singleton _, ?_⟩
    intro x hx y hy he
    obtain ⟨nb, hnb, rfl⟩ := mem_map.mp hx
    have := a.below nb hnb
    rw [mem_singleton.mp hy] at he
    omega
  · intro nb hnb
    rcases mem_append.mp hnb with hnb | hnb
    · exact Nat.lt_succ_of_lt (a.below nb hnb)
    · rw [mem_singleton.mp hnb]
      exact Nat.lt_succ_self _

theorem Allocated.update (a : Allocated s) (mac : Mac) (ip : UInt32) :
    neighbourUpdateMapping s none mac ip =
      some ({ s with lneighbour := s.lneighbour.filter (!replaced mac ip ·) }.listAddTail mac ip
        s.currentNetdev) := by
  have h := updateLoop_eq mac ip s.lneighbour [] none a.nodup
  simp only [Option.map_none, Option.toList_none, nil_append] at h
  simp only [neighbourUpdateMapping, deletePrev, ne_eq, not_true, false_and, if_false,
    Option.bind_eq_bind, Option.bind_some, h]
  rfl

/-- What is on the stack does no harm if it is null or a neighbour behind the first one. -/
theorem Allocated.update_isSome (a : Allocated s) (prevNb : Option Nat) (mac : Mac) (ip : UInt32) :
    (neighbourUpdateMapping s prevNb mac ip).isSome = true ↔
      prevNb = none ∨ ∃ nb ∈ s.lneighbour.tail, prevNb = some nb.addr := by
  cases prevNb with
  | none => simp [a.update]
  | some addr =>
    have none_left (l : List Neighbour) (nodup : (l.map Neighbour.addr).Nodup) :
        (updateLoop mac ip l none l).isSome = true := by
      have h := updateLoop_eq mac ip l [] none nodup
      simp only [Option.map_none, Option.toList_none, nil_append] at h
      rw [h]
      rfl
    have nodup := a.nodup
    cases hl : s.lneighbour with
    | nil => simp [neighbourUpdateMapping, deletePrev, listDel, hl]
    | cons first rest =>
      rw [hl, map_cons, nodup_cons] at nodup
      by_cases he : first.addr = addr
      · have hr : ∀ nb ∈ rest, addr ≠ nb.addr := by
          rintro nb hnb rfl
          exact nodup.1 (he ▸ mem_map_of_mem hnb)
        simp [neighbourUpdateMapping, deletePrev, listDel, hl, he]
        exact hr
      · have head : ¬(some addr ≠ none ∧ some addr = (first :: rest).head?.map Neighbour.addr) :=
          fun h => he (Option.some.inj h.2).symm
        by_cases hin : ∃ nb ∈ rest, addr = nb.addr
        · have hany : (first :: rest).any (·.addr == addr) = true := by
            obtain ⟨nb, hnb, rfl⟩ := hin
            exact any_eq_true.mpr ⟨nb, mem_cons_of_mem _ hnb, beq_self_eq_true _⟩
          have kept := none_left ((first :: rest).eraseP (·.addr == addr))
            ((nodup_cons.mpr nodup).sublist (List.Sublist.map _ eraseP_sublist))
          obtain ⟨l, hk⟩ := Option.isSome_iff_exists.mp kept
          simp only [neighbourUpdateMapping, deletePrev, listDel, hl, if_pos hany, if_neg head,
            Option.bind_eq_bind, Option.bind_some, hk]
          exact iff_of_true rfl (.inr (hin.imp fun nb h => ⟨h.1, congrArg some h.2⟩))
        · have hany : ¬(first :: rest).any (·.addr == addr) = true := by
            simp only [any_cons, Bool.or_eq_true, beq_iff_eq, he, false_or, any_eq_true]
            rintro ⟨nb, hnb, hx⟩
            exact hin ⟨nb, hnb, hx.symm⟩
          simp only [neighbourUpdateMapping, deletePrev, listDel, hl, if_neg hany,
            Option.bind_eq_bind, Option.bind_none]
          refine iff_of_false Bool.false_ne_true ?_
          rintro (h | ⟨nb, hnb, h⟩)
          · cases h
          · exact hin ⟨nb, hnb, Option.some.inj h⟩

/-! ### Runs -/

/-- The events after which the lookups are right. -/
def Meets (s : Stack) : Event → Prop
  | .lookup dev ip =>
    isNeighbour (s.devs dev) ip = onSubnet (s.devs dev) ip ∧
      (onSubnet (s.devs dev) ip = true →
        (∀ nb ∈ s.lneighbour, reachable nb = true → nb.ip ≠ ip) ∧
          s.netdev.state &&& netdevStateOff = 0)
  | .recvmsg _ _ => True
  | .frame prevNb _ => prevNb = none
  | .configure _ _ => True

instance (s : Stack) : (e : Event) → Decidable (Meets s e)
  | .lookup _ _ => inferInstanceAs (Decidable (_ ∧ (_ → _ ∧ _)))
  | .recvmsg _ _ => inferInstanceAs (Decidable True)
  | .frame prevNb _ => inferInstanceAs (Decidable (prevNb = none))
  | .configure _ _ => inferInstanceAs (Decidable True)

structure Good (s : Stack) : Prop extends Allocated s where
  waiting : ∀ q ∈ s.waiting, q.router = none
  answers : ∀ a ∈ s.answers, a.got = a.expected

theorem Good.answer (g : Good s) {got expected : Option Mac} (h : got = expected) :
    Good (s.answer got expected) := by
  refine ⟨⟨g.nodup, g.below⟩, g.waiting, ?_⟩
  intro a ha
  rcases mem_append.mp ha with ha | ha
  · exact g.answers a ha
  · rw [mem_singleton.mp ha]
    exact h

theorem getMac_none {ip : UInt32} (h : ∀ nb ∈ s.lneighbour, reachable nb = true → nb.ip ≠ ip) :
    getMacAddrFromIp s ip = none := by
  unfold getMacAddrFromIp
  rw [Option.map_eq_none_iff, List.find?_eq_none]
  intro nb hnb hfound
  obtain ⟨he, hr⟩ := Bool.and_eq_true_iff.mp hfound
  exact h nb hnb hr (eq_of_beq he)

theorem Good.lookup (g : Good s) {dev : Nat} {ip : UInt32} (meets : Meets s (.lookup dev ip))
    (h : step s (.lookup dev ip) = some t) : Good t := by
  obtain ⟨test, absent⟩ := meets
  simp only [step, lookupMacAddrForEthernet, routerFor, test] at h
  cases hs : onSubnet (s.devs dev) ip with
  | true =>
    obtain ⟨none', up⟩ := absent hs
    have asks : lookupMacAddrFromIp s ip = .asks := by
      unfold lookupMacAddrFromIp
      rw [getMac_none none', up]
      rfl
    rw [hs, if_pos rfl, if_pos rfl, asks] at h
    cases h
    refine ⟨⟨g.nodup, g.below⟩, ?_, g.answers⟩
    intro q hq
    rcases mem_append.mp hq with hq | hq
    · exact g.waiting q hq
    · rw [mem_singleton.mp hq]
  | false =>
    rw [hs] at h
    cases h
    exact g.answer rfl

theorem recent_learned (s : Stack) {ip : UInt32} {rarp : ArpPacket} (dev : Nat)
    (h : replies ip rarp = true) :
    (s.listAddTail rarp.sha rarp.spa dev).recent ip = some rarp.sha := by
  obtain ⟨_, hspa⟩ := Bool.and_eq_true_iff.mp h
  simp only [Stack.recent, Stack.listAddTail, List.find?_cons, hspa, Option.map_some]

theorem Good.recvmsg (g : Good s) {k : Nat} {rarp : ArpPacket}
    (h : step s (.recvmsg k rarp) = some t) : Good t := by
  obtain ⟨q, hq, h⟩ := Option.bind_eq_some_iff.mp h
  have router := g.waiting q (mem_of_getElem? hq)
  split at h
  · rename_i hr
    cases h
    have a : Allocated { s with waiting := s.waiting.eraseIdx k } := ⟨g.nodup, g.below⟩
    refine Good.answer ⟨a.listAddTail _ _ _, ?_, g.answers⟩ ?_
    · intro q' hq'
      exact g.waiting q' (mem_of_mem_eraseIdx hq')
    · rw [router, recent_learned _ _ hr]
      rfl
  · cases h
    exact g

theorem Good.frame (g : Good s) {ap : ArpPacket} (h : step s (.frame none ap) = some t) : Good t := by
  simp only [step, netDefaultRxHandler] at h
  split at h
  · cases h
    exact g
  split at h
  · cases h
    exact g
  split at h
  · rw [g.toAllocated.update] at h
    cases h
    have a : Allocated { s with lneighbour := s.lneighbour.filter (!replaced ap.sha ap.spa ·) } := by
      refine ⟨g.nodup.sublist (List.Sublist.map _ filter_sublist), ?_⟩
      intro nb hnb
      exact g.below nb (mem_of_mem_filter hnb)
    exact ⟨a.listAddTail _ _ _, g.waiting, g.answers⟩
  · cases h
    exact g

/-- An event keeps the neighbours apart and answers every lookup as it should. -/
theorem Good.step {e : Event} (g : Good s) (meets : Meets s e) (h : step s e = some t) : Good t := by
  cases e with
  | lookup dev ip => exact g.lookup meets h
  | recvmsg k rarp => exact g.recvmsg h
  | frame prevNb ap =>
    obtain rfl : prevNb = none := meets
    exact g.frame h
  | configure dev d =>
    cases h
    exact ⟨⟨g.nodup, g.below⟩, g.waiting, g.answers⟩

/-- Every lookup gives the hardware address learned last for its address, or the router's
one for an address that is not on the subnet; an update keeps all entries but those with its
own protocol or hardware address. -/
theorem next_hop_resolved (devs : Nat → NetDevice) (currentNetdev : Nat) {s : Stack}
    (run : Run Arp.step Meets { devs, currentNetdev } s) :
    (∀ a ∈ s.answers, a.got = a.expected) ∧
      ∀ mac ip, ∃ t, neighbourUpdateMapping s none mac ip = some t ∧
        ∀ nb ∈ s.lneighbour, nb.ip ≠ ip → nb.ha ≠ mac → nb ∈ t.lneighbour := by
  have g : Good s := by
    refine run.invariant (I := Good) ?_ ?_
    · exact ⟨⟨nodup_nil, by simp⟩, by simp, by simp⟩
    · intro a e b g meets h
      exact g.step meets h
  refine ⟨g.answers, ?_⟩
  intro mac ip
  refine ⟨_, g.toAllocated.update mac ip, ?_⟩
  intro nb hnb hip hha
  apply mem_append_left
  apply mem_filter.mpr
  refine ⟨hnb, ?_⟩
  simp [replaced, hip, hha]

def home (n : Nat) : NetDevice where
  devAddr := #v[0x52, 0x54, 0, 0x12, 0x34, 0x56]
  broadcastAddr := #v[0xff, 0xff, 0xff, 0xff, 0xff, 0xff]
  zeroAddr := #v[0, 0, 0, 0, 0, 0]
  routerAddr := #v[0x52, 0x55, 10, 0, 2, 2]
  localIp := 0x0A00020F
  subnetMask := if n = 0 then 0xFFFFFF00 else 0

def announcement (oper : UInt16) : ArpPacket where
  htype := htons 1
  ptype := htons 0x0800
  hlen := 6
  plen := 4
  oper := htons oper
  sha := #v[0x52, 0x55, 10, 0, 2, 3]
  spa := htonl 0x0A000203
  tha := #v[0xff, 0xff, 0xff, 0xff, 0xff, 0xff]
  tpa := htonl 0x0A000203

theorem next_hop_resolved_two : ∃ s, Run step Meets { devs := home } s ∧ s.answers.length = 2 ∧
    ∀ a ∈ s.answers, a.got = a.expected := by
  obtain ⟨s, run, h⟩ := replay_reaches step Meets { devs := home }
    [.lookup 0 0x08080808, .frame none (announcement 1), .lookup 1 0x0A000203,
      .recvmsg 0 (announcement 2)] (P := fun s => s.answers.length = 2) (by decide +kernel)
  exact ⟨s, run, h, (next_hop_resolved home 0 run).1⟩

/-- A frame for 10.0.2.3 goes to the router, although its hardware address is known. -/
theorem neighbour_sent_to_router : ∃ s, Run step (fun _ _ => True) { devs := home } s ∧
    s.answers = [{
      got := some #v[0x52, 0x55, 10, 0, 2, 2]
      expected := some #v[0x52, 0x55, 10, 0, 2, 3] }] :=
  replay_reaches step (fun _ _ => True) { devs := home }
    [.frame none (announcement 1), .lookup 0 0x0A000203]
    (P := fun s => s.answers = [{
      got := some #v[0x52, 0x55, 10, 0, 2, 2]
      expected := some #v[0x52, 0x55, 10, 0, 2, 3] }]) (by decide +kernel)

end Mos.Arp
