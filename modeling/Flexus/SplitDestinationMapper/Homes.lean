import Flexus.SplitDestinationMapper.Delivery

/-!
# Well-placed components are reached

In a well-placed system every message reaches whom it names, and the messages for an address
agree on its homes. A system that is not well placed has a message that does not arrive.
-/

namespace nSplitDestinationMapper

open nCMPCache (MemoryMessage MemoryMessageType DestinationType)

namespace Config

variable {c : Config} {m : Maps} {net : NetworkMessage} {dest : DestinationMessage} {a i : Nat}

/-! ## Sufficiency -/

theorem homeNamed_eq_some {make : Nat → Component} {number : Int} {target : Component} :
    homeNamed make number = some target ↔ ∃ k : Nat, number = k ∧ make k = target := by
  unfold homeNamed
  split
  · next hneg => exact iff_of_false (by simp) fun ⟨k, hk, _⟩ => by omega
  · next hpos =>
    constructor
    · intro h
      exact ⟨number.toNat, by omega, Option.some.inj h⟩
    · rintro ⟨k, rfl, rfl⟩
      rw [Int.toNat_natCast]

theorem WellPlaced.bank_lt (h : c.WellPlaced) {k : Nat} (hhas : c.Has (.DirectoryBank k)) : k < c.Banks := by
  rcases hhas with hlt | ⟨a, -, rfl⟩
  · exact hlt
  · exact h.getDirectoryLocation_lt a

theorem WellPlaced.controller_lt (h : c.WellPlaced) {k : Nat} (hhas : c.Has (.MemoryController k)) :
    k < c.MemControllers := by
  rcases hhas with hlt | ⟨a, -, rfl⟩
  · exact hlt
  · exact getMemoryLocation_lt h.controllers a

/-- The port of a bank. -/
theorem WellPlaced.reaches_bank (h : c.WellPlaced) (hleads : c.Leads m) {k : Nat} (hk : k < c.Banks) :
    ∃ port, at? m.theDir.index k = some port ∧ ∀ net : NetworkMessage, net.dest = port → net.dst_port = 0 →
      c.ValidPort net.dest ∧ c.deliver m net = (Component.DirectoryBank k).output net.vc := by
  have hreach := h.reaches_directory hleads (k := k)
    (fun hat => Nat.lt_of_lt_of_le hk (h.atMemory hat).1) (fun _ => Nat.lt_of_lt_of_le hk hleads.banks_le)
  rwa [Nat.mod_eq_of_lt hk] at hreach

/-- A local directory is reached from each core, and is part of the only bank. -/
theorem WellPlaced.reaches_local (h : c.WellPlaced) (hleads : c.Leads m) (hlocal : c.LocalDir = true)
    {requester : Int} (hpos : 0 ≤ requester) (hlt : requester < 2 * c.theTotalNumCores) :
    ∃ port, at? m.theDir.index (requester / 2) = some port ∧ ∀ net : NetworkMessage, net.dest = port →
      net.dst_port = 0 →
        c.ValidPort net.dest ∧ c.deliver m net = (Component.DirectoryBank 0).output net.vc := by
  obtain ⟨hone, hmemory⟩ := h.localDir hlocal
  have hsame : c.theTotalNumCores = c.Cores := if_pos h.cores
  obtain ⟨core, hcore⟩ : ∃ core : Nat, requester / 2 = core := ⟨(requester / 2).toNat, by omega⟩
  have hcore_lt : core < c.theTotalNumCores := by omega
  rw [hcore]
  have hreach := h.reaches_directory hleads (k := core)
    (fun hat => by have := hmemory hat; omega) (fun hdist => (hleads.distributed hdist).1 ▸ hcore_lt)
  rwa [hone, Nat.mod_one] at hreach

theorem WellPlaced.delivers (h : c.WellPlaced) (hleads : c.Leads m) : c.Delivers m := by
  intro dest aSrc vc target out hnamed hhas hrequester hout
  unfold DestinationMessage.named at hnamed
  unfold buildNetworkMessage
  cases htype : dest.type with
  | Requester =>
    simp only [htype] at hnamed ⊢
    exact ⟨_, rfl, reaches_cache h.cores hnamed hhas rfl rfl hout⟩
  | Source =>
    simp only [htype] at hnamed ⊢
    exact ⟨_, rfl, reaches_cache h.cores hnamed hhas rfl rfl hout⟩
  | Other =>
    simp only [htype] at hnamed ⊢
    exact ⟨_, rfl, reaches_cache h.cores hnamed hhas rfl rfl hout⟩
  | Multicast =>
    simp only [htype] at hnamed
    cases hnamed
  | Memory =>
    simp only [htype] at hnamed ⊢
    obtain ⟨k, hk, rfl⟩ := homeNamed_eq_some.mp hnamed
    obtain ⟨port, hport, hreach⟩ := h.reaches_controller hleads (h.controller_lt hhas)
    rw [hk, hport]
    refine ⟨_, rfl, (hreach _ rfl rfl).1, ?_⟩
    rw [(hreach _ rfl rfl).2]
    exact hout
  | RemoteDirectory =>
    simp only [htype] at hnamed ⊢
    obtain ⟨k, hk, rfl⟩ := homeNamed_eq_some.mp hnamed
    obtain ⟨port, hport, hreach⟩ := h.reaches_bank hleads (h.bank_lt hhas)
    rw [hk, hport]
    refine ⟨_, rfl, (hreach _ rfl rfl).1, ?_⟩
    rw [(hreach _ rfl rfl).2]
    exact hout
  | Directory =>
    simp only [htype] at hnamed ⊢
    obtain ⟨k, hk, rfl⟩ := homeNamed_eq_some.mp hnamed
    have hbank := h.bank_lt hhas
    split
    · next hlocal =>
      obtain ⟨port, hport, hreach⟩ := h.reaches_local hleads hlocal.1 hlocal.2 hrequester
      have hzero : k = 0 := by
        have hone := (h.localDir hlocal.1).1
        omega
      rw [hport]
      refine ⟨_, rfl, (hreach _ rfl rfl).1, ?_⟩
      rw [(hreach _ rfl rfl).2, ← hzero]
      exact hout
    · obtain ⟨port, hport, hreach⟩ := h.reaches_bank hleads hbank
      rw [if_pos (by omega), hk, hport]
      refine ⟨_, rfl, (hreach _ rfl rfl).1, ?_⟩
      rw [(hreach _ rfl rfl).2]
      exact hout

/-! ## Agreement -/

theorem Fits.fillDirectory (h : c.Fits a dest) : c.Fits a (c.fillDirectory a dest) := by
  unfold Config.fillDirectory
  split
  · exact ⟨.inr rfl, h.memory, h.requester⟩
  · exact h

theorem Fits.fillRequester (h : c.Fits a dest) {requester : Int} (hlt : requester < 2 * c.theTotalNumCores) :
    c.Fits a (Config.fillRequester requester dest) := by
  unfold Config.fillRequester
  split
  · exact ⟨h.directory, h.memory, hlt⟩
  · exact h

theorem Fits.toMemory (h : c.Fits a dest) : c.Fits a { dest with memory := c.getMemoryLocation a } :=
  ⟨h.directory, .inr rfl, h.requester⟩

theorem Fits.retype (h : c.Fits a dest) (type : DestinationType) : c.Fits a { dest with type := type } :=
  ⟨h.directory, h.memory, h.requester⟩

theorem fits_homeOf {requester : Int} (hlt : requester < 2 * c.theTotalNumCores) :
    c.Fits a (c.homeOf requester a) := ⟨.inr rfl, .inl rfl, hlt⟩

theorem Fits.adjustReplyDestination (h : c.Fits a dest) {msg : MemoryMessageType} {dest' : DestinationMessage}
    (hok : c.adjustReplyDestination msg dest = some dest') : c.Fits a dest' := by
  have hretyped : dest' = { dest with type := dest'.type } := by
    unfold Config.adjustReplyDestination at hok
    split at hok <;> first
      | (obtain rfl := Option.some.inj hok; first | rfl | (split <;> rfl))
      | cases hok
  rw [hretyped]
  exact h.retype _

theorem fits_requestDestination {t : MemoryTransport} (h : c.IsFor a t) {requester : Int}
    (hlt : requester < 2 * c.theTotalNumCores) : c.Fits a (c.requestDestination requester t) := by
  obtain ⟨rfl, hdest⟩ := h
  unfold requestDestination
  apply Fits.toMemory
  apply Fits.fillRequester _ hlt
  split
  · exact fits_homeOf hlt
  · next dest hsome => exact (hdest dest hsome).fillDirectory

theorem fits_snoopDestination {t : MemoryTransport} (h : c.IsFor a t) {requester : Int}
    (hlt : requester < 2 * c.theTotalNumCores) : c.Fits a (c.snoopDestination requester t) := by
  obtain ⟨rfl, hdest⟩ := h
  unfold snoopDestination
  apply Fits.fillRequester _ hlt
  apply Fits.fillDirectory
  split
  · exact (fits_homeOf hlt).toMemory
  · next dest hsome =>
    split
    · exact (hdest dest hsome).toMemory
    · exact hdest dest hsome

theorem fits_replyDestination {t : MemoryTransport} (h : c.IsFor a t) {requester : Int}
    (hlt : requester < 2 * c.theTotalNumCores) (hok : c.replyDestination requester t = some dest) :
    c.Fits a dest := by
  obtain ⟨rfl, hdest⟩ := h
  unfold replyDestination at hok
  split at hok
  · split at hok
    · obtain rfl := Option.some.inj hok
      exact (fits_homeOf hlt).toMemory
    · cases hok
  · next old hsome => exact (hdest old hsome).fillDirectory.adjustReplyDestination hok

/-- What an input sends is built for a destination that fits the address. -/
theorem push_ok {input : Input} {t t' : MemoryTransport} (hsends : c.Sends input i) (h : c.IsFor a t)
    (hok : c.push m input i t = some (t', net)) :
    ∃ (dest : DestinationMessage) (aSrc src_port : Int) (vc : VC) (built : NetworkMessage),
      t'.dest = some dest ∧ c.Fits a dest ∧ c.buildNetworkMessage m dest aSrc vc = some built ∧
        net = { built with src_port := src_port } := by
  have hsend : ∀ {aSrc src_port : Int} {vc : VC} {msg : MemoryMessage} {dest : DestinationMessage},
      c.Fits a dest → c.send m aSrc src_port vc msg dest = some (t', net) →
      ∃ (dest : DestinationMessage) (aSrc src_port : Int) (vc : VC) (built : NetworkMessage),
        t'.dest = some dest ∧ c.Fits a dest ∧ c.buildNetworkMessage m dest aSrc vc = some built ∧
          net = { built with src_port := src_port } := by
    intro aSrc src_port vc msg dest hfits hsent
    obtain ⟨built, hbuilt, heq⟩ := Option.map_eq_some_iff.mp hsent
    obtain ⟨rfl, rfl⟩ := Prod.mk.inj heq
    exact ⟨dest, aSrc, src_port, vc, built, rfl, hfits, hbuilt, rfl⟩
  have hodd : i < c.theTotalNumCores → (2 * (i : Int) + 1) < 2 * c.theTotalNumCores := fun hi => by omega
  have heven : i < c.theTotalNumCores → (2 * (i : Int)) < 2 * c.theTotalNumCores := fun hi => by omega
  have haddress := h.1
  cases input with
  | ICacheRequestIn => exact hsend (fits_requestDestination h (hodd hsends)) hok
  | ICacheSnoopIn => exact hsend (fits_snoopDestination h (hodd hsends)) hok
  | ICacheReplyIn =>
    obtain ⟨dest, hdest, hok⟩ := Option.bind_eq_some_iff.mp hok
    exact hsend (fits_replyDestination h (hodd hsends) hdest) hok
  | CacheRequestIn => exact hsend (fits_requestDestination h (heven hsends)) hok
  | CacheSnoopIn => exact hsend (fits_snoopDestination h (heven hsends)) hok
  | CacheReplyIn =>
    obtain ⟨dest, hdest, hok⟩ := Option.bind_eq_some_iff.mp hok
    exact hsend (fits_replyDestination h (heven hsends) hdest) hok
  | DirRequestIn =>
    obtain ⟨dest, hdest, hok⟩ := Option.bind_eq_some_iff.mp hok
    obtain ⟨node, -, hok⟩ := Option.bind_eq_some_iff.mp hok
    exact hsend (h.2 dest hdest) hok
  | DirSnoopIn =>
    obtain ⟨dest, hdest, hok⟩ := Option.bind_eq_some_iff.mp hok
    obtain ⟨node, -, hok⟩ := Option.bind_eq_some_iff.mp hok
    rw [haddress] at hok
    exact hsend (h.2 dest hdest).toMemory.fillDirectory hok
  | DirReplyIn =>
    obtain ⟨dest, hdest, hok⟩ := Option.bind_eq_some_iff.mp hok
    obtain ⟨node, -, hok⟩ := Option.bind_eq_some_iff.mp hok
    exact hsend (h.2 dest hdest) hok
  | MemoryIn =>
    obtain ⟨dest, hdest, hok⟩ := Option.bind_eq_some_iff.mp hok
    obtain ⟨node, -, hok⟩ := Option.bind_eq_some_iff.mp hok
    split at hok
    · exact hsend ((h.2 dest hdest).retype _) hok
    · exact hsend ((h.2 dest hdest).retype _) hok

theorem WellPlaced.agreesOnHomes (h : c.WellPlaced) (hleads : c.Leads m) : c.AgreesOnHomes m := by
  intro a _
  refine ⟨c.getDirectoryLocation a, c.getMemoryLocation a, ?_⟩
  intro input i t t' net hsends hfor hok dest hdest
  obtain ⟨dest', aSrc, src_port, vc, built, hdest', hfits, hbuilt, rfl⟩ := push_ok hsends hfor hok
  obtain rfl := Option.some.inj (hdest.symm.trans hdest')
  have hbank := h.getDirectoryLocation_lt a
  unfold buildNetworkMessage at hbuilt
  constructor
  · intro htype
    simp only [htype] at hbuilt
    split at hbuilt
    · next hlocal =>
      obtain ⟨port, hport, hreach⟩ := h.reaches_local hleads hlocal.1 hlocal.2 hfits.requester
      have hzero : c.getDirectoryLocation a = 0 := by
        have hone := (h.localDir hlocal.1).1
        omega
      rw [hport] at hbuilt
      obtain rfl := Option.some.inj hbuilt
      rw [(hreach _ rfl rfl).2, hzero]
    · split at hbuilt
      · next hpos =>
        have hhome : dest.directory = c.getDirectoryLocation a := hfits.directory.resolve_left (by omega)
        obtain ⟨port, hport, hreach⟩ := h.reaches_bank hleads hbank
        rw [hhome, hport] at hbuilt
        obtain rfl := Option.some.inj hbuilt
        exact (hreach _ rfl rfl).2
      · cases hbuilt
  · intro htype
    simp only [htype] at hbuilt
    obtain ⟨port', hport', -⟩ := Option.map_eq_some_iff.mp hbuilt
    have hhome : dest.memory = c.getMemoryLocation a := by
      refine hfits.memory.resolve_left fun hneg => ?_
      rw [hneg] at hport'
      cases hport'
    obtain ⟨port, hport, hreach⟩ := h.reaches_controller hleads (getMemoryLocation_lt h.controllers a)
    rw [hhome, hport] at hbuilt
    obtain rfl := Option.some.inj hbuilt
    exact (hreach _ rfl rfl).2

end Config

end nSplitDestinationMapper
