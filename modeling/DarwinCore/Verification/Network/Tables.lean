import DarwinCore.Library.Lists
import DarwinCore.Model.Network.ReactorSystem
import DarwinCore.Verification.Network.SendBuffer

/-! # The tables of a reactor

`connections_` and `fd_to_connection_id_` are inverse to each other, and every descriptor
in them is open. Operations that were accepted and not yet processed bring descriptors
along; these are open too, and no two owners share one. -/

namespace DarwinCore.Network

open Maps

namespace Operation

/-- The descriptor that an operation brings along. -/
def newFd : Operation → Option ℤ
  | .add fd _ => some fd
  | _ => none

/-- There are data to be sent, and they fit in a vector. -/
def Sized : Operation → Prop
  | .send _ data => data ≠ [] ∧ data.length < 2 ^ 63
  | _ => True

end Operation

namespace Reactor

/-- The operations that were accepted and not yet processed: those `held` outside the queue
and those in it. -/
def ahead (held : List Operation) (r : Reactor) : List Operation :=
  held ++ r.pendingOperations

/-- The descriptors that these operations bring along. -/
def newFds (held : List Operation) (r : Reactor) : List ℤ :=
  (r.ahead held).filterMap Operation.newFd

theorem newFds_add (fd : ℤ) (peer : SockAddr) (held : List Operation) (r : Reactor) :
    r.newFds (.add fd peer :: held) = fd :: r.newFds held :=
  rfl

theorem newFds_sublist (op : Operation) (held : List Operation) (r : Reactor) :
    (r.newFds held).Sublist (r.newFds (op :: held)) :=
  (List.sublist_cons_self op (r.ahead held)).filterMap _

/-- The tables are inverse to each other, and the descriptors of the connections and of the
operations not yet processed are open and all different. -/
structure Tables (held : List Operation) (r : Reactor) : Prop where
  keyed : ∀ id conn, r.connections.lookup id = some conn →
    conn.connectionId = id ∧ conn.sendBuffer.Valid
  owner : ∀ fd id, r.fdToConnectionId.lookup fd = some id ↔
    ∃ conn, r.connections.lookup id = some conn ∧ conn.fileDescriptor = fd
  live : ∀ id conn, r.connections.lookup id = some conn →
    0 ≤ conn.fileDescriptor ∧ conn.fileDescriptor ∈ r.kernel.openFds
  waiting : ∀ fd ∈ r.newFds held,
    0 ≤ fd ∧ fd ∈ r.kernel.openFds ∧ r.fdToConnectionId.lookup fd = none
  distinct : (r.newFds held).Nodup
  sized : ∀ op ∈ r.ahead held, op.Sized

variable {held : List Operation} {r r' : Reactor} {id : UInt64} {fd : ℤ}
  {conn : ReactorConnection}

/-- Only which operations are ahead matters, not where they are. -/
theorem Tables.transfer {held' : List Operation} (h : r.Tables held)
    (hconnections : r'.connections = r.connections)
    (hfds : r'.fdToConnectionId = r.fdToConnectionId)
    (hopen : r'.kernel.openFds = r.kernel.openFds)
    (hperm : (r.ahead held).Perm (r'.ahead held')) : r'.Tables held' where
  keyed := by
    rw [hconnections]
    exact h.keyed
  owner := by
    rw [hconnections, hfds]
    exact h.owner
  live := by
    rw [hconnections, hopen]
    exact h.live
  waiting fd hfd := by
    rw [hfds, hopen]
    exact h.waiting fd ((hperm.filterMap _).mem_iff.mpr hfd)
  distinct := (hperm.filterMap _).nodup_iff.mp h.distinct
  sized op hop := h.sized op (hperm.mem_iff.mpr hop)

theorem Tables.congr (h : r.Tables held) (hconnections : r'.connections = r.connections)
    (hfds : r'.fdToConnectionId = r.fdToConnectionId)
    (hopen : r'.kernel.openFds = r.kernel.openFds)
    (hqueue : r'.pendingOperations = r.pendingOperations) : r'.Tables held :=
  h.transfer hconnections hfds hopen (by rw [ahead, ahead, hqueue])

theorem Tables.drop {op : Operation} (h : r.Tables (op :: held)) : r.Tables held where
  keyed := h.keyed
  owner := h.owner
  live := h.live
  waiting fd hfd := h.waiting fd ((newFds_sublist op held r).mem hfd)
  distinct := h.distinct.sublist (newFds_sublist op held r)
  sized op' hop' := h.sized op' (List.mem_cons_of_mem _ hop')

theorem Tables.eq_of_fd (h : r.Tables held) {id' : UInt64} {conn' : ReactorConnection}
    (hc : r.connections.lookup id = some conn) (hc' : r.connections.lookup id' = some conn')
    (hfd : conn'.fileDescriptor = conn.fileDescriptor) : id' = id := by
  have hid := (h.owner _ id).mpr ⟨conn, hc, rfl⟩
  have hid' := (h.owner _ id').mpr ⟨conn', hc', hfd⟩
  exact Option.some.inj (hid'.symm.trans hid)

theorem Tables.newFd_fresh {peer : SockAddr} (h : r.Tables (.add fd peer :: held)) :
    0 ≤ fd ∧ fd ∈ r.kernel.openFds ∧ r.fdToConnectionId.lookup fd = none ∧
      (∀ i c, r.connections.lookup i = some c → c.fileDescriptor ≠ fd) ∧
      fd ∉ r.newFds held := by
  obtain ⟨hpos, hopen, hnone⟩ := h.waiting fd List.mem_cons_self
  have hdistinct := h.distinct
  rw [newFds_add, List.nodup_cons] at hdistinct
  refine ⟨hpos, hopen, hnone, ?_, hdistinct.1⟩
  intro i c hc hfd
  rw [(h.owner fd i).mpr ⟨c, hc, hfd⟩] at hnone
  cases hnone

/-! ## Changes to the tables -/

/-- After an assignment to a connection, the table holds the same descriptors and keys. -/
theorem lookup_store (hc : r.connections.lookup id = some conn) {conn' : ReactorConnection}
    (i : UInt64) :
    (r.store id conn').connections.lookup i =
      (r.connections.lookup i).map fun c => if i = id then conn' else c := by
  by_cases hi : i = id
  · subst hi
    simp [store, hc]
  · rw [store, Finmap.lookup_insert_of_ne _ hi]
    simp [hi]

theorem Tables.store (h : r.Tables held) (hc : r.connections.lookup id = some conn)
    {conn' : ReactorConnection} (hfd : conn'.fileDescriptor = conn.fileDescriptor)
    (hid : conn'.connectionId = conn.connectionId) (hvalid : conn'.sendBuffer.Valid) :
    (r.store id conn').Tables held where
  keyed i c hlook := by
    rw [lookup_store hc, Option.map_eq_some_iff] at hlook
    obtain ⟨c₀, hc₀, rfl⟩ := hlook
    have hkeyed := h.keyed i c₀ hc₀
    split
    · rename_i hi
      subst hi
      exact ⟨hid.trans (h.keyed i conn hc).1, hvalid⟩
    · exact hkeyed
  owner fd i := by
    rw [lookup_store hc]
    refine (h.owner fd i).trans ?_
    by_cases hi : i = id
    · subst hi
      simp [hc, hfd]
    · simp [hi]
  live i c hlook := by
    rw [lookup_store hc, Option.map_eq_some_iff] at hlook
    obtain ⟨c₀, hc₀, rfl⟩ := hlook
    have hlive := h.live i c₀ hc₀
    split
    · rename_i hi
      subst hi
      rw [hfd]
      exact h.live i conn hc
    · exact hlive
  waiting := h.waiting
  distinct := h.distinct
  sized := h.sized

/-- Closing a descriptor that no connection has and no operation brings along. -/
theorem Tables.closeFd (h : r.Tables held)
    (htable : ∀ i c, r.connections.lookup i = some c → c.fileDescriptor ≠ fd)
    (hheld : fd ∉ r.newFds held) : (r.closeFd fd).Tables held where
  keyed := h.keyed
  owner := h.owner
  live i c hc :=
    ⟨(h.live i c hc).1, Finset.mem_erase_of_ne_of_mem (htable i c hc) (h.live i c hc).2⟩
  waiting fd' hfd' := by
    obtain ⟨hpos, hopen, hnone⟩ := h.waiting fd' hfd'
    have hne : fd' ≠ fd := fun heq => hheld (heq ▸ hfd')
    exact ⟨hpos, Finset.mem_erase_of_ne_of_mem hne hopen, hnone⟩
  distinct := h.distinct
  sized := h.sized

/-- Removing a connection closes its descriptor, which nobody else has. -/
theorem Tables.removed (h : r.Tables held) (hc : r.connections.lookup id = some conn) :
    Tables held { r.closeFd conn.fileDescriptor with
      fdToConnectionId := r.fdToConnectionId.erase conn.fileDescriptor
      connections := r.connections.erase id } where
  keyed i c hlook := h.keyed i c (lookup_erase_eq_some.mp hlook).2
  owner fd i := by
    rw [lookup_erase_eq_some, h.owner]
    constructor
    · rintro ⟨hne, c, hlook, rfl⟩
      have hi : i ≠ id := by
        rintro rfl
        exact hne (congrArg _ (Option.some.inj (hlook.symm.trans hc)))
      exact ⟨c, lookup_erase_eq_some.mpr ⟨hi, hlook⟩, rfl⟩
    · rintro ⟨c, hlook, rfl⟩
      obtain ⟨hi, hlook⟩ := lookup_erase_eq_some.mp hlook
      exact ⟨fun heq => hi (h.eq_of_fd hc hlook heq), c, hlook, rfl⟩
  live i c hlook := by
    obtain ⟨hi, hlook⟩ := lookup_erase_eq_some.mp hlook
    have hne : c.fileDescriptor ≠ conn.fileDescriptor := fun heq => hi (h.eq_of_fd hc hlook heq)
    exact ⟨(h.live i c hlook).1, Finset.mem_erase_of_ne_of_mem hne (h.live i c hlook).2⟩
  waiting fd hfd := by
    obtain ⟨hpos, hopen, hnone⟩ := h.waiting fd hfd
    have hne : fd ≠ conn.fileDescriptor := by
      rintro rfl
      rw [(h.owner _ id).mpr ⟨conn, hc, rfl⟩] at hnone
      cases hnone
    refine ⟨hpos, Finset.mem_erase_of_ne_of_mem hne hopen, ?_⟩
    exact (Finmap.lookup_erase_ne hne).trans hnone
  distinct := h.distinct
  sized := h.sized

/-- A new connection under a fresh id takes over the descriptor that the first operation
held brought along. -/
theorem Tables.registered {peer : SockAddr} (h : r.Tables (.add fd peer :: held))
    (hid : r.connections.lookup id = none) (hkey : conn.connectionId = id)
    (hfd : conn.fileDescriptor = fd) (hvalid : conn.sendBuffer.Valid) :
    Tables held { r.store id conn with
      fdToConnectionId := r.fdToConnectionId.insert fd id } := by
  obtain ⟨hpos, hopen, hnone, htable, hheld⟩ := h.newFd_fresh
  constructor
  · intro i c hlook
    rcases lookup_insert_eq_some.mp hlook with ⟨rfl, rfl⟩ | ⟨-, hlook⟩
    · exact ⟨hkey, hvalid⟩
    · exact h.keyed i c hlook
  · intro fd' i
    rw [lookup_insert_eq_some]
    constructor
    · rintro (⟨rfl, rfl⟩ | ⟨-, hlook⟩)
      · exact ⟨conn, lookup_insert_eq_some.mpr (.inl ⟨rfl, rfl⟩), hfd⟩
      · obtain ⟨c, hc, rfl⟩ := (h.owner fd' i).mp hlook
        exact ⟨c, lookup_insert_eq_some.mpr (.inr ⟨ne_of_lookup hid hc, hc⟩), rfl⟩
    · rintro ⟨c, hlook, rfl⟩
      rcases lookup_insert_eq_some.mp hlook with ⟨rfl, rfl⟩ | ⟨-, hlook⟩
      · exact .inl ⟨hfd, rfl⟩
      · exact .inr ⟨htable i c hlook, (h.owner _ i).mpr ⟨c, hlook, rfl⟩⟩
  · intro i c hlook
    rcases lookup_insert_eq_some.mp hlook with ⟨rfl, rfl⟩ | ⟨-, hlook⟩
    · rw [hfd]
      exact ⟨hpos, hopen⟩
    · exact h.live i c hlook
  · intro fd' hfd'
    obtain ⟨hpos', hopen', hnone'⟩ := h.drop.waiting fd' hfd'
    have hne : fd' ≠ fd := by
      rintro rfl
      exact hheld hfd'
    exact ⟨hpos', hopen', (Finmap.lookup_insert_of_ne _ hne).trans hnone'⟩
  · exact h.drop.distinct
  · exact h.drop.sized

/-- A socket that was not open comes to be held by the operation that adds it. -/
theorem Tables.accept (h : r.Tables held) (hpos : 0 ≤ fd) (hfresh : fd ∉ r.kernel.openFds)
    (peer : SockAddr) : (r.accept fd).Tables (.add fd peer :: held) where
  keyed := h.keyed
  owner := h.owner
  live i c hc := ⟨(h.live i c hc).1, Finset.mem_insert_of_mem (h.live i c hc).2⟩
  waiting fd' hfd' := by
    rcases List.mem_cons.mp hfd' with rfl | hfd'
    · refine ⟨hpos, Finset.mem_insert_self _ _, ?_⟩
      refine Option.eq_none_iff_forall_ne_some.mpr fun i hi => ?_
      obtain ⟨c, hc, rfl⟩ := (h.owner _ i).mp hi
      exact hfresh (h.live i c hc).2
    · obtain ⟨hpos', hopen', hnone'⟩ := h.waiting fd' hfd'
      exact ⟨hpos', Finset.mem_insert_of_mem hopen', hnone'⟩
  distinct := by
    rw [newFds_add]
    exact List.nodup_cons.mpr ⟨fun hfd => hfresh (h.waiting fd hfd).2.1, h.distinct⟩
  sized op hop := by
    rcases List.mem_cons.mp hop with rfl | hop
    · trivial
    · exact h.sized op hop

end Reactor

end DarwinCore.Network
