import Flexus.Lib.DimensionOrder
import Flexus.NetShim.Torus

/-!
# The routes of torus and mesh networks

The lines that the generator writes describe dimension-order routing: on two rings for a torus,
and on two lines for a mesh.
-/

namespace nNetShim

namespace Torus

open DimensionOrder

/-! ## What the lines of a file mean -/

/-- The ends that channels are attached to. -/
inductive End where
  | node (n : Nat)
  | port (sw p : Nat)
  deriving DecidableEq, Repr

def Line.ends : Line → Option (End × End)
  | TopNode node sw port => some (.node node, .port sw port)
  | TopSwitch node1 port1 node2 port2 => some (.port node1 port1, .port node2 port2)
  | Route .. => none

section Meaning

variable (lines : List Line)

/-- A line of the topology connects its ends in both directions. -/
def Joined (a b : End) : Prop := ∃ l ∈ lines, l.ends = some (a, b) ∨ l.ends = some (b, a)

/-- Two switches are connected. -/
def Linked (s s' : Nat) : Prop := ∃ p q, Joined lines (.port s p) (.port s' q)

/-- A message for a node goes from a switch to another one. -/
def Hop (dest s s' : Nat) : Prop :=
  ∃ p vc q, .Route s dest p vc ∈ lines ∧ Joined lines (.port s p) (.port s' q)

/-- The messages of a node leave a switch for their node. -/
def Ejects (dest : Nat) : Prop :=
  ∃ p vc, .Route dest dest p vc ∈ lines ∧ Joined lines (.port dest p) (.node dest)

/-- A message that came over a link on a virtual channel can wait for the next link and virtual
    channel of its route. A link is named by the end where messages enter it. -/
inductive Depends : End × Nat → End × Nat → Prop
  | inject {n s q d p vc w : Nat} : Joined lines (.node n) (.port s q) → .Route s d p vc ∈ lines →
      Depends (.node n, w) (.port s p, vc)
  | hop {s d p vc s' q p' vc' : Nat} : .Route s d p vc ∈ lines → Joined lines (.port s p) (.port s' q) →
      .Route s' d p' vc' ∈ lines → Depends (.port s p, vc) (.port s' p', vc')

/-- The routes of a network: each switch has one for each node, over a port that is connected
    to one end; they lead to each node in as few hops as possible; and the links and virtual
    channels do not depend on each other in a circle. -/
structure DeadlockFree (numNodes : Nat) : Prop where
  entry : ∀ s < numNodes, ∀ d < numNodes, ∃! out : Nat × Nat, .Route s d out.1 out.2 ∈ lines
  connected : ∀ s d p vc, .Route s d p vc ∈ lines → ∃! b, Joined lines (.port s p) b
  complete : ∀ s < numNodes, ∀ d < numNodes, ∃ n, Walk (Hop lines d) n s d ∧ Ejects lines d ∧
    ∀ m, Walk (Linked lines) m s d → n ≤ m
  acyclic : ∀ c, ¬ Relation.TransGen (Depends lines) c c

end Meaning

/-! ## Files that describe two axes -/

/-- The direction behind a port of a switch. -/
def direction : Port → Direction
  | .first true => .EAST
  | .first false => .WEST
  | .second true => .SOUTH
  | .second false => .NORTH
  | .out => .LOCAL

def code (p : Port) : Nat := (direction p).port

/-- The port of a switch that is written as a number. -/
def decode : Nat → Port
  | 3 => .first true
  | 1 => .first false
  | 4 => .second true
  | 2 => .second false
  | _ => .out

theorem decode_code (p : Port) : decode (code p) = p := by
  cases p with
  | first fwd => cases fwd <;> rfl
  | second fwd => cases fwd <;> rfl
  | out => rfl

theorem code_injective {p q : Port} (h : code p = code q) : p = q := by
  rw [← decode_code p, h, decode_code]

section Describes

variable {α β : Type*} [DecidableEq α] [DecidableEq β] {X : Axis α Bool} {Y : Axis β Bool}
  {id : α × β → Nat} {place : Nat → α × β} {numNodes : Nat} {lines : List Line}

/-- The lines describe the switches and routes of two axes, with the numbers of the switches. -/
structure Describes (X : Axis α Bool) (Y : Axis β Bool) (id : α × β → Nat) (place : Nat → α × β)
    (numNodes : Nat) (lines : List Line) : Prop where
  place_id : ∀ s, place (id s) = s
  exists_id : ∀ n < numNodes, ∃ s, id s = n
  nodes : ∀ n sw p, .TopNode n sw p ∈ lines ↔ ∃ s, n = id s ∧ sw = id s ∧ p = code .out
  switches : ∀ a p b q, .TopSwitch a p b q ∈ lines ↔ ∃ port s s',
    port.IsForward ∧ Neighbour X Y port s s' ∧
      a = id s ∧ p = code port ∧ b = id s' ∧ q = code port.opposite
  routes : ∀ a d p vc, .Route a d p vc ∈ lines ↔ ∃ s t, a = id s ∧ d = id t ∧
    p = code (DimensionOrder.route X Y false s t).1 ∧ vc = (DimensionOrder.route X Y false s t).2.toNat

/-- The number of a channel between two switches, or 0 for one of a node. -/
def number (X : Axis α Bool) (Y : Axis β Bool) (place : Nat → α × β) : End × Nat → Nat
  | (.node _, _) => 0
  | (.port a p, vc) => rank X Y (decode p) (vc == 1) (place a) + 1

namespace Describes

variable (h : Describes X Y id place numNodes lines)
include h

theorem id_injective {s s' : α × β} (heq : id s = id s') : s = s' := by
  rw [← h.place_id s, heq, h.place_id]

/-- What the ports of the switches are connected to. -/
theorem joined_port {a p : Nat} {b : End} : Joined lines (.port a p) b ↔
    (∃ port s s', Neighbour X Y port s s' ∧ a = id s ∧ p = code port ∧
      b = .port (id s') (code port.opposite)) ∨ ∃ s, a = id s ∧ p = code .out ∧ b = .node (id s) := by
  constructor
  · rintro ⟨l, hl, hends⟩
    cases l with
    | TopNode n sw port =>
      obtain ⟨s, rfl, rfl, rfl⟩ := (h.nodes ..).mp hl
      rcases hends with hends | hends
      · cases hends
      · cases hends
        exact .inr ⟨s, rfl, rfl, rfl⟩
    | TopSwitch node1 port1 node2 port2 =>
      obtain ⟨port, s, s', -, hnext, rfl, rfl, rfl, rfl⟩ := (h.switches ..).mp hl
      rcases hends with hends | hends
      · cases hends
        exact .inl ⟨port, s, s', hnext, rfl, rfl, rfl⟩
      · cases hends
        refine .inl ⟨port.opposite, s', s, neighbour_opposite hnext, rfl, rfl, ?_⟩
        rw [Port.opposite_opposite]
    | Route => rcases hends with hends | hends <;> cases hends
  · rintro (⟨port, s, s', hnext, rfl, rfl, rfl⟩ | ⟨s, rfl, rfl, rfl⟩)
    · rcases Port.isForward_or_opposite hnext.ne_out with hport | hport
      · exact ⟨_, (h.switches ..).mpr ⟨port, s, s', hport, hnext, rfl, rfl, rfl, rfl⟩, .inl rfl⟩
      · refine ⟨_, (h.switches ..).mpr ⟨port.opposite, s', s, hport, neighbour_opposite hnext, rfl, rfl,
          rfl, rfl⟩, .inr ?_⟩
        rw [Port.opposite_opposite]
        rfl
    · exact ⟨_, (h.nodes ..).mpr ⟨s, rfl, rfl, rfl⟩, .inr rfl⟩

theorem route_iff {s t : α × β} {p vc : Nat} : .Route (id s) (id t) p vc ∈ lines ↔
    p = code (DimensionOrder.route X Y false s t).1 ∧ vc = (DimensionOrder.route X Y false s t).2.toNat := by
  rw [h.routes]
  constructor
  · rintro ⟨s', t', hs, ht, hp, hvc⟩
    rw [h.id_injective hs, h.id_injective ht]
    exact ⟨hp, hvc⟩
  · rintro ⟨hp, hvc⟩
    exact ⟨s, t, rfl, rfl, hp, hvc⟩

theorem joined_of_neighbour {s s' : α × β} {port : Port} (hnext : Neighbour X Y port s s') :
    Joined lines (.port (id s) (code port)) (.port (id s') (code port.opposite)) :=
  h.joined_port.mpr (.inl ⟨port, s, s', hnext, rfl, rfl, rfl⟩)

/-- A port leads to at most one other switch. -/
theorem neighbour_of_joined {s : α × β} {port : Port} {a q : Nat}
    (hjoined : Joined lines (.port (id s) (code port)) (.port a q)) :
    ∃ s', Neighbour X Y port s s' ∧ a = id s' ∧ q = code port.opposite := by
  rcases h.joined_port.mp hjoined with ⟨port', s₁, s', hnext, hs, hport, hend⟩ | ⟨s₁, -, -, hend⟩
  · rw [← h.id_injective hs, ← code_injective hport] at hnext
    rw [← code_injective hport] at hend
    cases hend
    exact ⟨s', hnext, rfl, rfl⟩
  · cases hend

theorem entry (s t : α × β) : ∃! out : Nat × Nat, .Route (id s) (id t) out.1 out.2 ∈ lines := by
  refine ⟨(code (DimensionOrder.route X Y false s t).1, (DimensionOrder.route X Y false s t).2.toNat), h.route_iff.mpr ⟨rfl, rfl⟩, ?_⟩
  intro out hout
  obtain ⟨hp, hvc⟩ := h.route_iff.mp hout
  exact Prod.ext hp hvc

theorem connected {a d p vc : Nat} (hroute : .Route a d p vc ∈ lines) :
    ∃! b, Joined lines (.port a p) b := by
  obtain ⟨s, t, rfl, rfl, rfl, -⟩ := (h.routes ..).mp hroute
  by_cases hst : s = t
  · subst hst
    rw [route_self]
    refine ⟨.node (id s), h.joined_port.mpr (.inr ⟨s, rfl, rfl, rfl⟩), fun b hb => ?_⟩
    rcases h.joined_port.mp hb with ⟨port, s₁, s', hnext, -, hport, -⟩ | ⟨s₁, hs, -, rfl⟩
    · exact absurd (code_injective hport).symm hnext.ne_out
    · rw [hs]
  · obtain ⟨s', hnext, -⟩ := route_progress (X := X) (Y := Y) false hst
    refine ⟨_, h.joined_of_neighbour hnext, fun b hb => ?_⟩
    rcases h.joined_port.mp hb with ⟨port, s₁, s₂, hnext', hs, hport, rfl⟩ | ⟨s₁, -, hport, -⟩
    · rw [← h.id_injective hs, ← code_injective hport] at hnext'
      rw [neighbour_unique hnext hnext', code_injective hport]
    · exact absurd (code_injective hport) hnext.ne_out

theorem linked {a b : Nat} (hlinked : Linked lines a b) : ∃ port, Neighbour X Y port (place a) (place b) := by
  obtain ⟨p, q, hjoined⟩ := hlinked
  rcases h.joined_port.mp hjoined with ⟨port, s, s', hnext, rfl, -, hend⟩ | ⟨s, -, -, hend⟩
  · cases hend
    rw [h.place_id, h.place_id]
    exact ⟨port, hnext⟩
  · cases hend

theorem hop {s s' t : α × β} (hnext : Neighbour X Y (DimensionOrder.route X Y false s t).1 s s') :
    Hop lines (id t) (id s) (id s') :=
  ⟨_, _, _, h.route_iff.mpr ⟨rfl, rfl⟩, h.joined_of_neighbour hnext⟩

theorem complete (s t : α × β) : ∃ n, Walk (Hop lines (id t)) n (id s) (id t) ∧ Ejects lines (id t) ∧
    ∀ m, Walk (Linked lines) m (id s) (id t) → n ≤ m := by
  refine ⟨dist X Y s t, walk_route.map id fun _ _ hnext => h.hop hnext, ?_, fun m hwalk => ?_⟩
  · refine ⟨code .out, 0, h.route_iff.mpr ?_, h.joined_port.mpr (.inr ⟨t, rfl, rfl, rfl⟩)⟩
    rw [route_self]
    exact ⟨rfl, rfl⟩
  · have hplaces : Walk (fun a b => ∃ port, Neighbour X Y port a b) m (place (id s)) (place (id t)) :=
      hwalk.map place fun _ _ hlinked => h.linked hlinked
    rw [h.place_id, h.place_id] at hplaces
    have hle := hplaces.dist_le (fun s => dist X Y s t) fun a b hnext => by
      obtain ⟨port, hnext⟩ := hnext
      exact dist_neighbour hnext
    rw [dist_eq_zero.mpr rfl] at hle
    omega

theorem number_port (s : α × β) (port : Port) (v : Bool) :
    number X Y place (.port (id s) (code port), v.toNat) = rank X Y port v s + 1 := by
  unfold number
  dsimp only
  rw [decode_code, h.place_id]
  cases v <;> rfl

theorem number_lt {c c' : End × Nat} (hdep : Depends lines c c') :
    number X Y place c < number X Y place c' := by
  cases hdep with
  | inject => exact Nat.succ_pos _
  | hop hroute hjoined hroute' =>
    obtain ⟨s, t, rfl, rfl, rfl, rfl⟩ := (h.routes ..).mp hroute
    obtain ⟨s', hnext, rfl, -⟩ := h.neighbour_of_joined hjoined
    obtain ⟨rfl, rfl⟩ := h.route_iff.mp hroute'
    rw [h.number_port, h.number_port]
    exact Nat.add_lt_add_right (rank_route hnext) 1

/-- The routes of two axes are complete and free of deadlock. -/
theorem deadlockFree : DeadlockFree lines numNodes where
  entry a ha d hd := by
    obtain ⟨s, rfl⟩ := h.exists_id a ha
    obtain ⟨t, rfl⟩ := h.exists_id d hd
    exact h.entry s t
  connected _ _ _ _ hroute := h.connected hroute
  complete a ha d hd := by
    obtain ⟨s, rfl⟩ := h.exists_id a ha
    obtain ⟨t, rfl⟩ := h.exists_id d hd
    exact h.complete s t
  acyclic := acyclic_of_rank fun _ _ hdep => h.number_lt hdep

end Describes

end Describes

/-! ## The lines of the generator -/

theorem mapM_id_eq {α : Type*} {l : List (Option α)} (h : none ∉ l) :
    ∃ l', l.mapM id = some l' ∧ ∀ a, a ∈ l' ↔ some a ∈ l := by
  induction l with
  | nil => exact ⟨[], rfl, fun a => iff_of_false List.not_mem_nil List.not_mem_nil⟩
  | cons o l ih =>
    obtain ⟨l', hl', hmem⟩ := ih fun hnone => h (List.mem_cons_of_mem _ hnone)
    cases o with
    | none => exact absurd List.mem_cons_self h
    | some b =>
      refine ⟨b :: l', ?_, fun a => ?_⟩
      · rw [List.mapM_cons, hl']
        rfl
      · rw [List.mem_cons, List.mem_cons, hmem, Option.some.injEq]

namespace Generator

variable (g : Generator)

theorem nodesPerDim_pos (i : Fin DIMS) : 0 < g.nodesPerDim i := by
  obtain ⟨k, hk⟩ := g.pow2 i
  rw [hk]
  positivity

theorem nodesPerDim_even (i : Fin DIMS) : g.nodesPerDim i = 1 ∨ 2 ∣ g.nodesPerDim i := by
  obtain ⟨k, hk⟩ := g.pow2 i
  rw [hk]
  cases k with
  | zero => exact .inl rfl
  | succ k => exact .inr (Dvd.intro_left _ rfl)

abbrev Coord : Type := Fin (g.nodesPerDim 0) × Fin (g.nodesPerDim 1)

def id (s : g.Coord) : Nat := s.1 + s.2 * g.nodesPerDim 0

def place (n : Nat) : g.Coord :=
  (⟨n % g.nodesPerDim 0, Nat.mod_lt _ (g.nodesPerDim_pos 0)⟩,
    ⟨n / g.nodesPerDim 0 % g.nodesPerDim 1, Nat.mod_lt _ (g.nodesPerDim_pos 1)⟩)

theorem getXCoord_id (s : g.Coord) : g.getXCoord (g.id s) = s.1 := by
  unfold getXCoord id
  rw [Nat.add_mul_mod_self_right, Nat.mod_eq_of_lt s.1.isLt]

theorem getYCoord_id (s : g.Coord) : g.getYCoord (g.id s) = s.2 := by
  unfold getYCoord id
  rw [Nat.add_mul_div_right _ _ (g.nodesPerDim_pos 0), Nat.div_eq_of_lt s.1.isLt, Nat.zero_add]

theorem place_id (s : g.Coord) : g.place (g.id s) = s := by
  apply Prod.ext
  · exact Fin.ext (g.getXCoord_id s)
  · apply Fin.ext
    change g.getYCoord (g.id s) % g.nodesPerDim 1 = s.2
    rw [getYCoord_id, Nat.mod_eq_of_lt s.2.isLt]

theorem id_lt (s : g.Coord) : g.id s < g.numNodes := by
  unfold id
  have hx := s.1.isLt
  calc s.1.val + s.2.val * g.nodesPerDim 0
      < (s.2.val + 1) * g.nodesPerDim 0 := by rw [Nat.add_mul, Nat.one_mul]; omega
    _ ≤ g.nodesPerDim 1 * g.nodesPerDim 0 := Nat.mul_le_mul_right _ s.2.isLt
    _ = g.numNodes := by rw [Nat.mul_comm, g.area]

theorem exists_id {n : Nat} (hn : n < g.numNodes) : ∃ s, g.id s = n := by
  refine ⟨g.place n, ?_⟩
  have hy : n / g.nodesPerDim 0 < g.nodesPerDim 1 := by
    apply Nat.div_lt_of_lt_mul
    rwa [g.area]
  unfold id place
  dsimp only
  rw [Nat.mod_eq_of_lt hy, Nat.mul_comm]
  exact Nat.mod_add_div ..

theorem connect_id (s s' : g.Coord) (dir1 dir2 : Direction) :
    g.connect s.1 s.2 dir1 s'.1 s'.2 dir2 = some (writeS2S (g.id s) dir1 (g.id s') dir2) := by
  have hcoord : ∀ s : g.Coord, g.getNodeIdCoord s.1 s.2 = some (g.id s) := by
    intro s
    exact if_neg (Nat.not_le.mpr (g.id_lt s))
  unfold connect
  rw [hcoord, hcoord]
  rfl

/-- Two axes describe what the generator writes for each switch. -/
structure Follows (X : Axis (Fin (g.nodesPerDim 0)) Bool) (Y : Axis (Fin (g.nodesPerDim 1)) Bool) :
    Prop where
  topology : ∀ s, none ∉ g.topology (g.id s) ∧ ∀ l, some l ∈ g.topology (g.id s) ↔
    ∃ port s', port.IsForward ∧ Neighbour X Y port s s' ∧
      l = writeS2S (g.id s) (direction port) (g.id s') (direction port.opposite)
  route : ∀ s t, g.route (g.id s) (g.id t) = some (writeBasicRoute (g.id s) (g.id t)
    (direction (DimensionOrder.route X Y false s t).1) (DimensionOrder.route X Y false s t).2.toNat)

variable {g} {X : Axis (Fin (g.nodesPerDim 0)) Bool} {Y : Axis (Fin (g.nodesPerDim 1)) Bool}

/-- What a line of the generator tells about the two axes. -/
def Tells (g : Generator) (X : Axis (Fin (g.nodesPerDim 0)) Bool) (Y : Axis (Fin (g.nodesPerDim 1)) Bool)
    (l : Line) : Prop :=
  (∃ s, l = .TopNode (g.id s) (g.id s) 0) ∨
    (∃ s port s', port.IsForward ∧ Neighbour X Y port s s' ∧
      l = writeS2S (g.id s) (direction port) (g.id s') (direction port.opposite)) ∨
    ∃ s t, l = writeBasicRoute (g.id s) (g.id t) (direction (DimensionOrder.route X Y false s t).1)
      (DimensionOrder.route X Y false s t).2.toNat

theorem mem_range_iff {n : Nat} : n ∈ List.range g.numNodes ↔ ∃ s, g.id s = n := by
  rw [List.mem_range]
  constructor
  · exact g.exists_id
  · rintro ⟨s, rfl⟩
    exact g.id_lt s

namespace Follows

variable (h : g.Follows X Y)
include h

theorem mem_written {o : Option Line} : o ∈ g.written ↔ ∃ l, o = some l ∧ g.Tells X Y l := by
  unfold written generateSwitches
  simp only [List.map_map, List.mem_append, List.mem_map, List.mem_flatMap, mem_range_iff]
  constructor
  · rintro ((⟨_, ⟨s, rfl⟩, rfl⟩ | ⟨_, ⟨s, rfl⟩, ho⟩) | ⟨_, ⟨s, rfl⟩, _, ⟨t, rfl⟩, rfl⟩)
    · exact ⟨_, rfl, .inl ⟨s, rfl⟩⟩
    · cases o with
      | none => exact absurd ho (h.topology s).1
      | some l =>
        obtain ⟨port, s', hport, hnext, hl⟩ := ((h.topology s).2 l).mp ho
        exact ⟨l, rfl, .inr (.inl ⟨s, port, s', hport, hnext, hl⟩)⟩
    · exact ⟨_, h.route s t, .inr (.inr ⟨s, t, rfl⟩)⟩
  · rintro ⟨l, rfl, ⟨s, rfl⟩ | ⟨s, port, s', hport, hnext, rfl⟩ | ⟨s, t, rfl⟩⟩
    · exact .inl (.inl ⟨_, ⟨s, rfl⟩, rfl⟩)
    · exact .inl (.inr ⟨_, ⟨s, rfl⟩, ((h.topology s).2 _).mpr ⟨port, s', hport, hnext, rfl⟩⟩)
    · exact .inr ⟨_, ⟨s, rfl⟩, _, ⟨t, rfl⟩, h.route s t⟩

/-- The generator comes to its end, and its lines describe the two axes. -/
theorem generate : ∃ lines, g.generate = some lines ∧ Describes X Y g.id g.place g.numNodes lines := by
  have hnone : none ∉ g.written := by
    intro hnone
    obtain ⟨l, hl, -⟩ := h.mem_written.mp hnone
    cases hl
  obtain ⟨lines, hlines, hmem⟩ := mapM_id_eq hnone
  have htells : ∀ l, l ∈ lines ↔ g.Tells X Y l := by
    intro l
    rw [hmem, h.mem_written]
    constructor
    · rintro ⟨l', hl', htells⟩
      cases hl'
      exact htells
    · exact fun htells => ⟨l, rfl, htells⟩
  refine ⟨lines, hlines, g.place_id, fun n hn => g.exists_id hn, ?_, ?_, ?_⟩
  · intro n sw p
    rw [htells]
    constructor
    · rintro (⟨s, hl⟩ | ⟨_, _, _, _, _, hl⟩ | ⟨_, _, hl⟩)
      · cases hl
        exact ⟨s, rfl, rfl, rfl⟩
      · cases hl
      · cases hl
    · rintro ⟨s, rfl, rfl, rfl⟩
      exact .inl ⟨s, rfl⟩
  · intro a p b q
    rw [htells]
    constructor
    · rintro (⟨s, hl⟩ | ⟨s, port, s', hport, hnext, hl⟩ | ⟨_, _, hl⟩)
      · cases hl
      · cases hl
        exact ⟨port, s, s', hport, hnext, rfl, rfl, rfl, rfl⟩
      · cases hl
    · rintro ⟨port, s, s', hport, hnext, rfl, rfl, rfl, rfl⟩
      exact .inr (.inl ⟨s, port, s', hport, hnext, rfl⟩)
  · intro a d p vc
    rw [htells]
    constructor
    · rintro (⟨s, hl⟩ | ⟨_, _, _, _, _, hl⟩ | ⟨s, t, hl⟩)
      · cases hl
      · cases hl
      · cases hl
        exact ⟨s, t, rfl, rfl, rfl, rfl⟩
    · rintro ⟨s, t, rfl, rfl, rfl, rfl⟩
      exact .inr (.inr ⟨s, t, rfl⟩)

end Follows

/-! ## The torus -/

theorem id_eq_iff {s t : g.Coord} : g.id s = g.id t ↔ s = t := by
  constructor
  · intro heq
    rw [← g.place_id s, heq, g.place_id]
  · exact congrArg g.id

/-- The choice of the way around a ring. -/
theorem positive_eq {n : Nat} (hn : n = 1 ∨ 2 ∣ n) (a t : Fin n) :
    positive ((t.val : Int) - a.val) n = (ring n hn).forward a t := by
  unfold positive
  have hhalf : (n : Int).tdiv 2 = (n / 2 : Nat) := rfl
  rw [Int.neg_tdiv, hhalf]
  apply decide_eq_decide.mpr
  omega

theorem mem_torusTopology (s : g.Coord) {o : Option Line} : o ∈ g.generateTorusTopology (g.id s) ↔
    ∃ port s', port.IsForward ∧
      Neighbour (ring _ (g.nodesPerDim_even 0)) (ring _ (g.nodesPerDim_even 1)) port s s' ∧
        o = some (writeS2S (g.id s) (direction port) (g.id s') (direction port.opposite)) := by
  rw [exists_forward]
  have heast : (s.1.val + 1) % g.nodesPerDim 0 < g.nodesPerDim 0 := Nat.mod_lt _ (g.nodesPerDim_pos 0)
  have hsouth : (s.2.val + 1) % g.nodesPerDim 1 < g.nodesPerDim 1 := Nat.mod_lt _ (g.nodesPerDim_pos 1)
  have heastLine := g.connect_id s (⟨_, heast⟩, s.2) .EAST .WEST
  have hsouthLine := g.connect_id s (s.1, ⟨_, hsouth⟩) .SOUTH .NORTH
  unfold generateTorusTopology
  dsimp only at heastLine hsouthLine ⊢
  rw [getXCoord_id, getYCoord_id, heastLine, hsouthLine, List.mem_cons, List.mem_singleton]
  refine or_congr ⟨?_, ?_⟩ ⟨?_, ?_⟩
  · exact fun ho => ⟨_, ring_next.mpr rfl, ho⟩
  · rintro ⟨a, hnext, ho⟩
    rwa [show a = ⟨_, heast⟩ from Fin.ext (ring_next.mp hnext)] at ho
  · exact fun ho => ⟨_, ring_next.mpr rfl, ho⟩
  · rintro ⟨b, hnext, ho⟩
    rwa [show b = ⟨_, hsouth⟩ from Fin.ext (ring_next.mp hnext)] at ho

theorem torusRoute (s t : g.Coord) :
    g.generateDeadlockFreeTorusRoute (g.id s) (g.id t) =
      let out := DimensionOrder.route (ring _ (g.nodesPerDim_even 0)) (ring _ (g.nodesPerDim_even 1)) false s t
      writeBasicRoute (g.id s) (g.id t) (direction out.1) out.2.toNat := by
  unfold generateDeadlockFreeTorusRoute
  dsimp only
  rw [getXCoord_id, getXCoord_id, getYCoord_id, getYCoord_id]
  by_cases hst : s = t
  · subst hst
    rw [if_pos rfl, route_self]
    rfl
  · rw [if_neg (mt id_eq_iff.mp hst)]
    by_cases hx : s.1 = t.1
    · have hy : s.2 ≠ t.2 := fun hy => hst (Prod.ext hx hy)
      have hoff : ¬ (t.1.val : Int) - s.1.val ≠ 0 := by rw [hx]; omega
      rw [if_neg hoff, route_second hx hy, positive_eq (g.nodesPerDim_even 1)]
      cases hfwd : (ring _ (g.nodesPerDim_even 1)).forward s.2 t.2 <;> rfl
    · have hoff : (t.1.val : Int) - s.1.val ≠ 0 := by omega
      rw [if_pos hoff, route_first hx, positive_eq (g.nodesPerDim_even 0)]
      cases hfwd : (ring _ (g.nodesPerDim_even 0)).forward s.1 t.1 <;> rfl

/-- A torus is two rings. -/
theorem follows_ring (htorus : g.isTorus = true) :
    g.Follows (ring _ (g.nodesPerDim_even 0)) (ring _ (g.nodesPerDim_even 1)) where
  topology s := by
    unfold topology
    rw [if_pos htorus]
    refine ⟨fun hnone => ?_, fun l => ?_⟩
    · obtain ⟨_, _, _, _, hl⟩ := (mem_torusTopology s).mp hnone
      cases hl
    · rw [mem_torusTopology]
      simp only [Option.some.injEq]
  route s t := by
    unfold route
    rw [if_pos htorus, torusRoute]

/-! ## The mesh -/

theorem mem_meshTopology (s : g.Coord) {o : Option Line} : o ∈ g.generateMeshTopology (g.id s) ↔
    ∃ port s', port.IsForward ∧ Neighbour (line (g.nodesPerDim 0)) (line (g.nodesPerDim 1)) port s s' ∧
      o = some (writeS2S (g.id s) (direction port) (g.id s') (direction port.opposite)) := by
  rw [exists_forward]
  unfold generateMeshTopology
  dsimp only
  rw [getXCoord_id, getYCoord_id, List.mem_append]
  refine or_congr ?_ ?_
  · by_cases hend : s.1.val = g.nodesPerDim 0 - 1
    · rw [if_neg (not_not_intro hend)]
      refine iff_of_false List.not_mem_nil ?_
      rintro ⟨a, hnext, -⟩
      have hnext : a.val = s.1.val + 1 := hnext
      omega
    · have heast : s.1.val + 1 < g.nodesPerDim 0 := by omega
      have heastLine := g.connect_id s (⟨_, heast⟩, s.2) .EAST .WEST
      dsimp only at heastLine
      rw [if_pos hend, heastLine, List.mem_singleton]
      constructor
      · exact fun ho => ⟨⟨_, heast⟩, rfl, ho⟩
      · rintro ⟨a, hnext, ho⟩
        rwa [show a = ⟨_, heast⟩ from Fin.ext hnext] at ho
  · by_cases hend : s.2.val = g.nodesPerDim 1 - 1
    · rw [if_neg (not_not_intro hend)]
      refine iff_of_false List.not_mem_nil ?_
      rintro ⟨b, hnext, -⟩
      have hnext : b.val = s.2.val + 1 := hnext
      omega
    · have hsouth : s.2.val + 1 < g.nodesPerDim 1 := by omega
      have hsouthLine := g.connect_id s (s.1, ⟨_, hsouth⟩) .SOUTH .NORTH
      dsimp only at hsouthLine
      rw [if_pos hend, hsouthLine, List.mem_singleton]
      constructor
      · exact fun ho => ⟨⟨_, hsouth⟩, rfl, ho⟩
      · rintro ⟨b, hnext, ho⟩
        rwa [show b = ⟨_, hsouth⟩ from Fin.ext hnext] at ho

theorem meshRoute (s t : g.Coord) :
    g.generateDeadlockFreeMeshRoute (g.id s) (g.id t) =
      let out := DimensionOrder.route (line (g.nodesPerDim 0)) (line (g.nodesPerDim 1)) false s t
      some (writeBasicRoute (g.id s) (g.id t) (direction out.1) out.2.toNat) := by
  unfold generateDeadlockFreeMeshRoute
  dsimp only
  rw [getXCoord_id, getXCoord_id, getYCoord_id, getYCoord_id]
  by_cases hst : s = t
  · subst hst
    rw [if_pos rfl, route_self]
    rfl
  · rw [if_neg (mt id_eq_iff.mp hst)]
    by_cases hx : s.1 = t.1
    · have hy : s.2 ≠ t.2 := fun hy => hst (Prod.ext hx hy)
      rw [route_second hx hy, if_neg (by rw [hx]; omega), if_neg (by rw [hx]; omega)]
      by_cases hlt : s.2 < t.2
      · have hfwd : (line (g.nodesPerDim 1)).forward s.2 t.2 = true := decide_eq_true hlt
        rw [if_neg (by omega), if_pos (by omega), hfwd]
        rfl
      · have hfwd : (line (g.nodesPerDim 1)).forward s.2 t.2 = false := decide_eq_false hlt
        rw [if_pos (by omega), hfwd]
        rfl
    · rw [route_first hx]
      by_cases hlt : s.1 < t.1
      · have hfwd : (line (g.nodesPerDim 0)).forward s.1 t.1 = true := decide_eq_true hlt
        rw [if_neg (by omega), if_pos (by omega), hfwd]
        rfl
      · have hfwd : (line (g.nodesPerDim 0)).forward s.1 t.1 = false := decide_eq_false hlt
        rw [if_pos (by omega), hfwd]
        rfl

/-- A mesh is two lines. -/
theorem follows_line (htorus : g.isTorus = false) :
    g.Follows (line (g.nodesPerDim 0)) (line (g.nodesPerDim 1)) where
  topology s := by
    unfold topology
    rw [if_neg (Bool.eq_false_iff.mp htorus)]
    refine ⟨fun hnone => ?_, fun l => ?_⟩
    · obtain ⟨_, _, _, _, hl⟩ := (mem_meshTopology s).mp hnone
      cases hl
    · rw [mem_meshTopology]
      simp only [Option.some.injEq]
  route s t := by
    unfold route
    rw [if_neg (Bool.eq_false_iff.mp htorus), meshRoute]

/-- Whatever its arguments are, a generator writes complete routes that are free of deadlock. -/
theorem deadlockFree (g : Generator) :
    ∃ lines, g.generate = some lines ∧ DeadlockFree lines g.numNodes := by
  cases htorus : g.isTorus with
  | true =>
    obtain ⟨lines, hlines, hdescribes⟩ := (follows_ring htorus).generate
    exact ⟨lines, hlines, hdescribes.deadlockFree⟩
  | false =>
    obtain ⟨lines, hlines, hdescribes⟩ := (follows_line htorus).generate
    exact ⟨lines, hlines, hdescribes.deadlockFree⟩

end Generator

/-- The arguments of a torus or mesh whose number of nodes is a power of two are accepted. -/
theorem processArguments_two_pow (k : Nat) (torus : Bool) :
    ∃ g, processArguments (2 ^ k) (if torus then "-t" else "-m") "-d" = some g ∧
      g.numNodes = 2 ^ k ∧ g.isTorus = torus := by
  have hnodes : ((2 : Int) ^ k).toNat = 2 ^ k := by
    rw [← Nat.cast_ofNat, ← Nat.cast_pow, Int.toNat_natCast]
  have hvalid : ¬ ((2 : Int) ^ k ≤ 0 ∨ ((2 : Int) ^ k).toNat &&& (((2 : Int) ^ k).toNat - 1) ≠ 0) := by
    rw [hnodes, not_or, not_not]
    refine ⟨not_le.mpr (by positivity), ?_⟩
    exact (and_sub_one_eq_zero (by positivity)).mpr ⟨k, rfl⟩
  unfold processArguments
  rw [dif_neg hvalid]
  dsimp only
  rw [if_pos (by decide +kernel)]
  cases torus with
  | true => exact ⟨_, if_pos (by decide +kernel), hnodes, rfl⟩
  | false => exact ⟨_, (if_neg (by decide +kernel)).trans (if_pos (by decide +kernel)), hnodes, rfl⟩

/-- For each power of two, the program writes a torus and a mesh with that many nodes, whose
    routes are complete, as short as possible and free of deadlock. -/
theorem main_deadlockFree (k : Nat) (torus : Bool) :
    ∃ lines, main (2 ^ k) (if torus then "-t" else "-m") "-d" = some lines ∧
      DeadlockFree lines (2 ^ k) := by
  obtain ⟨g, hg, hnodes, -⟩ := processArguments_two_pow k torus
  obtain ⟨lines, hlines, hfree⟩ := g.deadlockFree
  rw [hnodes] at hfree
  refine ⟨lines, ?_, hfree⟩
  unfold main
  rw [hg]
  exact hlines

end Torus

end nNetShim
