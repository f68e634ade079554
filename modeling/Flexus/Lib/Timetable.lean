import Mathlib.Tactic

/-!
# Timetables of servers

Servers that serve one booking at a time. A booking goes to the server at the front, which moves
to the back with the time from which it is free again. When the servers stand still, everything
that is not over is put off.
-/

/-- The time from which the server was free, and the time for which it is taken. -/
structure Booking (ι : Type*) where
  server : ι
  free : Nat
  start : Nat
  finish : Nat
  deriving DecidableEq, Repr

/-- The servers with the times from which they are free, and the bookings in their order. -/
structure Timetable (ι : Type*) where
  slots : List (ι × Nat)
  bookings : List (Booking ι)
  deriving DecidableEq, Repr

/-- What has not started, and what has not ended, does so later. -/
def Booking.delay {ι : Type*} (now : Nat) (b : Booking ι) : Booking ι :=
  { b with
    start := if now < b.start then b.start + 1 else b.start
    finish := if now < b.finish then b.finish + 1 else b.finish }

namespace Timetable

variable {ι : Type*}

def book (t : Timetable ι) (start finish : Nat) : Timetable ι :=
  match t.slots with
  | [] => t
  | (server, free) :: slots => ⟨slots ++ [(server, finish)], t.bookings ++ [⟨server, free, start, finish⟩]⟩

/-- The servers stand still for a unit of time. -/
def stall (t : Timetable ι) (now : Nat) : Timetable ι :=
  ⟨t.slots.map fun s => (s.1, s.2 + 1), t.bookings.map (Booking.delay now)⟩

/-- No two bookings of one server overlap. -/
def Apart (bs : List (Booking ι)) : Prop := bs.Pairwise fun x y => x.server = y.server → x.finish ≤ y.start

/-- The bookings that start in a window of time. -/
def starting (t : Timetable ι) (opens size : Nat) : List (Booking ι) :=
  t.bookings.filter fun b => opens ≤ b.start ∧ b.start < opens + size

/-- Every booking is of a server that was free, and ends before the server is free again. -/
structure Sound (shortest : Nat) (t : Timetable ι) : Prop where
  distinct : (t.slots.map Prod.fst).Nodup
  known : ∀ b ∈ t.bookings, b.server ∈ t.slots.map Prod.fst
  covered : ∀ b ∈ t.bookings, ∀ s ∈ t.slots, b.server = s.1 → b.finish ≤ s.2
  apart : Apart t.bookings
  prompt : ∀ b ∈ t.bookings, b.free ≤ b.start
  long : ∀ b ∈ t.bookings, b.start + shortest ≤ b.finish

variable {t : Timetable ι} {shortest start finish : Nat}

/-- A server serves at most one booking that starts in a window no longer than a booking lasts. -/
theorem Sound.length_starting_le (h : t.Sound shortest) (opens : Nat) :
    (t.starting opens shortest).length ≤ t.slots.length := by
  have hnodup : ((t.starting opens shortest).map Booking.server).Nodup := by
    rw [List.Nodup, List.pairwise_map]
    apply (h.apart.filter _).imp_of_mem
    intro x y hx hy hxy hsame
    obtain ⟨hmem, hxin⟩ := List.mem_filter.mp hx
    obtain ⟨-, hyin⟩ := List.mem_filter.mp hy
    have hlong := h.long x hmem
    have hover := hxy hsame
    simp only [decide_eq_true_eq] at hxin hyin
    omega
  have hknown : (t.starting opens shortest).map Booking.server ⊆ t.slots.map Prod.fst := by
    intro j hj
    obtain ⟨b, hb, rfl⟩ := List.mem_map.mp hj
    exact h.known b (List.mem_filter.mp hb).1
  have hle := (hnodup.subperm hknown).length_le
  rwa [List.length_map, List.length_map] at hle

theorem book_of_slots {server : ι} {free : Nat} {slots : List (ι × Nat)} (hslots : t.slots = (server, free) :: slots) :
    t.book start finish =
      ⟨slots ++ [(server, finish)], t.bookings ++ [⟨server, free, start, finish⟩]⟩ := by
  rw [book, hslots]

/-- A booking turns the servers. -/
theorem perm_book (t : Timetable ι) (start finish : Nat) :
    ((t.book start finish).slots.map Prod.fst).Perm (t.slots.map Prod.fst) := by
  cases hslots : t.slots with
  | nil => rw [book, hslots, hslots]
  | cons slot slots =>
    rw [book_of_slots hslots, List.map_append, List.map_cons]
    exact List.perm_append_singleton _ _

/-- The server at the front may be booked from the time it is free. -/
theorem Sound.book {server : ι} {free : Nat} {slots : List (ι × Nat)} (h : t.Sound shortest)
    (hslots : t.slots = (server, free) :: slots) (hfree : free ≤ start) (hlong : start + shortest ≤ finish) :
    (t.book start finish).Sound shortest := by
  have hnodup := h.distinct
  rw [hslots, List.map_cons, List.nodup_cons] at hnodup
  have hservers := t.perm_book start finish
  -- what was booked of this server is over when it is free
  have hbefore : ∀ b ∈ t.bookings, b.server = server → b.finish ≤ start := by
    intro b hb hsame
    have hover := h.covered b hb (server, free) (hslots ▸ List.mem_cons_self) hsame
    exact hover.trans hfree
  rw [book_of_slots hslots] at hservers ⊢
  constructor
  · exact hservers.nodup_iff.mpr h.distinct
  · intro b hb
    rw [hservers.mem_iff]
    obtain hb | hb := List.mem_append.mp hb
    · exact h.known b hb
    · obtain rfl := List.mem_singleton.mp hb
      rw [hslots]
      exact List.mem_cons_self
  · intro b hb s hs hsame
    obtain hb | hb := List.mem_append.mp hb
    · obtain hs | hs := List.mem_append.mp hs
      · exact h.covered b hb s (hslots ▸ List.mem_cons_of_mem _ hs) hsame
      · obtain rfl := List.mem_singleton.mp hs
        have hover := hbefore b hb hsame
        show b.finish ≤ finish
        omega
    · obtain rfl := List.mem_singleton.mp hb
      obtain hs | hs := List.mem_append.mp hs
      · have hmem : s.1 ∈ slots.map Prod.fst := List.mem_map_of_mem hs
        rw [← hsame] at hmem
        exact absurd hmem hnodup.1
      · obtain rfl := List.mem_singleton.mp hs
        exact Nat.le_refl _
  · rw [Apart, List.pairwise_append]
    refine ⟨h.apart, List.pairwise_singleton _ _, ?_⟩
    intro x hx y hy hsame
    obtain rfl := List.mem_singleton.mp hy
    exact hbefore x hx hsame
  · intro b hb
    obtain hb | hb := List.mem_append.mp hb
    · exact h.prompt b hb
    · obtain rfl := List.mem_singleton.mp hb
      exact hfree
  · intro b hb
    obtain hb | hb := List.mem_append.mp hb
    · exact h.long b hb
    · obtain rfl := List.mem_singleton.mp hb
      exact hlong

/-- A unit of time in which the servers stand still leaves the bookings in order. -/
theorem Sound.stall (h : t.Sound shortest) (now : Nat) : (t.stall now).Sound shortest := by
  have hservers : (t.stall now).slots.map Prod.fst = t.slots.map Prod.fst := by
    rw [Timetable.stall, List.map_map]
    rfl
  constructor
  · rw [hservers]
    exact h.distinct
  · intro b hb
    obtain ⟨x, hx, rfl⟩ := List.mem_map.mp hb
    rw [hservers]
    exact h.known x hx
  · intro b hb s hs hsame
    obtain ⟨x, hx, rfl⟩ := List.mem_map.mp hb
    obtain ⟨r, hr, rfl⟩ := List.mem_map.mp hs
    have hover := h.covered x hx r hr hsame
    simp only [Booking.delay]
    split <;> omega
  · rw [Apart, Timetable.stall, List.pairwise_map]
    apply h.apart.imp
    intro x y hxy hsame
    have hover := hxy hsame
    simp only [Booking.delay]
    split <;> split <;> omega
  · intro b hb
    obtain ⟨x, hx, rfl⟩ := List.mem_map.mp hb
    have hprompt := h.prompt x hx
    simp only [Booking.delay]
    split <;> omega
  · intro b hb
    obtain ⟨x, hx, rfl⟩ := List.mem_map.mp hb
    have hlong := h.long x hx
    simp only [Booking.delay]
    split <;> split <;> omega

end Timetable
