import Stencil.Proofs.Render.Pieces
/-!
# Bounded — what a sink with little room is left with

A writer with room for some bytes, offered more again and again, takes those that there is room for and fails exactly
when there are more (`Writer.writeAll_limited`).  Every sink is fed with the same pieces, so a bounded sink is left with
the front of what the template writes without bounds (`Template.render_bounded`).
-/
namespace Stencil

theorem Written.bytes_add (w : Written) (s : Bytes) : (w.add s).bytes = w.bytes ++ s := by
  simp [Written.bytes, Written.add]

namespace Writer

variable {failure : SinkFailure} {room : Nat} {w : Written} {s : Bytes}

theorem writeAll_limited_zero : (limited failure).writeAll (0, w) s = ((0, w), if s = [] then none else some failure) := by
  cases s with
  | nil => rw [writeAll, if_pos rfl]
  | cons b r =>
    have hoffer : (limited failure).offer (0, w) (b :: r) = ((0, w), refuse failure) := rfl
    rw [writeAll, hoffer, if_neg (List.cons_ne_nil b r)]
    cases failure <;> rfl

/-- The first offer takes what there is room for, and the rest is offered again. -/
theorem writeAll_limited_of_pos (hroom : 0 < room) (hs : s ≠ []) : (limited failure).writeAll (room, w) s =
    (limited failure).writeAll (room - s.length, w.add (s.take room)) (s.drop room) := by
  cases s with
  | nil => exact absurd rfl hs
  | cons b r =>
    have hoffer : (limited failure).offer (room, w) (b :: r) =
        ((room - (r.length + 1), w.add ((b :: r).take room)), .ok (min (room - 1) r.length + 1)) := by
      refine (if_neg (Nat.ne_of_gt hroom)).trans ?_
      rw [List.length_cons, show min room (r.length + 1) = min (room - 1) r.length + 1 by omega]
    rw [writeAll, hoffer]
    dsimp only
    congr 1
    -- dropping more than there is comes to the same
    rcases Nat.le_total room (r.length + 1) with hle | hle
    · rw [Nat.min_eq_left (by omega), ← List.drop_succ_cons (a := b), Nat.sub_add_cancel hroom]
    · rw [Nat.min_eq_right (by omega), List.drop_length, List.drop_of_length_le (by rwa [List.length_cons])]

/-- **What a limited writer makes of a whole write**: it takes the bytes that there is room for, and the write fails
exactly when there are more. -/
theorem writeAll_limited (failure : SinkFailure) (room : Nat) (w : Written) (s : Bytes) :
    ∃ w', (limited failure).writeAll (room, w) s =
        ((room - s.length, w'), if s.length ≤ room then none else some failure) ∧
      w'.bytes = w.bytes ++ s.take room := by
  rcases Nat.eq_zero_or_pos room with rfl | hroom
  · refine ⟨w, ?_, by rw [List.take_zero, List.append_nil]⟩
    rw [writeAll_limited_zero, Nat.zero_sub]
    simp only [Nat.le_zero, List.length_eq_zero_iff]
  · by_cases hs : s = []
    · subst hs
      exact ⟨w, by rw [writeAll, List.length_nil, Nat.sub_zero, if_pos (Nat.zero_le room)], by simp⟩
    · refine ⟨w.add (s.take room), ?_, Written.bytes_add w _⟩
      rw [writeAll_limited_of_pos hroom hs]
      by_cases hle : s.length ≤ room
      · rw [List.drop_of_length_le hle, writeAll, if_pos hle]
      · rw [show room - s.length = 0 by omega, writeAll_limited_zero, if_neg hle, if_neg]
        rwa [List.drop_eq_nil_iff]

end Writer

namespace Sink

theorem put_bounded (failure : SinkFailure) (room : Nat) (w : Written) (s : Bytes) :
    ∃ w', (bounded failure).put (room, w) s =
        ((room - s.length, w'), if s.length ≤ room then .ok () else .error (.sink failure)) ∧
      w'.bytes = w.bytes ++ s.take room := by
  obtain ⟨w', hwrite, hbytes⟩ := Writer.writeAll_limited failure room w s
  refine ⟨w', ?_, hbytes⟩
  rw [put, show (bounded failure).write (room, w) s = _ from hwrite]
  by_cases hle : s.length ≤ room
  · rw [if_pos hle, if_pos hle]
  · rw [if_neg hle, if_neg hle]

/-- **What a bounded sink is left with after pieces**: the front of them, and a failure exactly when there is more. -/
theorem feed_bounded (failure : SinkFailure) (r : Except RenderError Unit) : ∀ (ps : List Bytes) (room : Nat) (w : Written),
    ((bounded failure).feed (room, w) r ps).1.2.bytes = w.bytes ++ ps.flatten.take room ∧
      ((bounded failure).feed (room, w) r ps).2 =
        if ps.flatten.length ≤ room then r else .error (.sink failure)
  | [], room, w => by
    rw [feed, List.flatten_nil, List.length_nil, if_pos (Nat.zero_le room), List.take_nil, List.append_nil]
    exact ⟨rfl, rfl⟩
  | p :: ps, room, w => by
    obtain ⟨w', hput, hbytes⟩ := put_bounded failure room w p
    rw [feed, hput, List.flatten_cons, List.length_append, List.take_append]
    by_cases hle : p.length ≤ room
    · obtain ⟨hrest, hend⟩ := feed_bounded failure r ps (room - p.length) w'
      simp only [if_pos hle, hrest, hend, hbytes, List.append_assoc, Nat.le_sub_iff_add_le hle, Nat.add_comm p.length,
        and_self]
    · -- the piece does not fit, so no other is put
      simp only [if_neg hle, hbytes, show room - p.length = 0 by omega, List.take_zero, List.append_nil, true_and]
      rw [if_neg (by omega)]

end Sink

/-- **A sink with room for `n` bytes receives the first `n` bytes of the output**, all of them if there are no more.  The
result is then that of rendering without bounds; if there are more, it is the failure of the sink, whatever comes later
in the template. -/
theorem Template.render_bounded (t : Template) (s : Scope) (failure : SinkFailure) (n : Nat) :
    (t.render (Sink.bounded failure) s (n, .nothing)).1.2.bytes =
        (t.render Sink.memory s .nothing).1.bytes.take n ∧
      (t.render (Sink.bounded failure) s (n, .nothing)).2 =
        if (t.render Sink.memory s .nothing).1.bytes.length ≤ n then (t.render Sink.memory s .nothing).2
        else .error (.sink failure) := by
  have h := Sink.feed_bounded failure (t.ending s) (t.pieces s) n .nothing
  rw [← t.render_eq_feed, t.flatten_pieces] at h
  exact h

/-- The third byte does not fit, and the name that would be unbound is not come to. -/
example : Template.render [.text (utf8 "abc") ⟨0, 0⟩, .render (.var ⟨utf8 "x", ⟨0, 6⟩⟩)] (Sink.bounded .full)
    ⟨.standard, .empty, .empty⟩ (2, .nothing) = ((0, ⟨[utf8 "ab"]⟩), .error (.sink .full)) := by cbv

end Stencil
