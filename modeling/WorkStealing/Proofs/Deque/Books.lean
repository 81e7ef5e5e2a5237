import WorkStealing.Deque.Contest

/-!
# The books of a contest

A contest remembers the occurrences that were pushed and those that were given
out, both with the latest first. The books balance with a list of occurrences
that are still to be had: pushed are exactly those given out and those to be
had, no occurrence was pushed twice, and those to be had stand in the order of
their pushes.
-/

namespace WorkStealing

/-- The occurrences pushed are those obtained and those left over, each once. Those left over are
in the order of their pushes, and all numbers up to `next` are free for further pushes. -/
structure Balanced {α : Type} (live pushed obtained : List (Occurrence α)) (next : Nat) :
    Prop where
  inOrder : live.Sublist pushed.reverse
  /-- Each push is left over or obtained. -/
  shared : (live ++ obtained).Perm pushed
  numbered : pushed.Pairwise fun later earlier => earlier.serial < later.serial
  below : ∀ o ∈ pushed, o.serial < next

namespace Balanced

variable {α : Type} {live pushed obtained : List (Occurrence α)} {next : Nat}

theorem nil :
    Balanced ([] : List (Occurrence α)) [] [] next := by
  refine ⟨?_, ?_, ?_, ?_⟩ <;> simp

/-- Further numbers may be used up without a push. -/
theorem mono
    {later : Nat}
    (h : Balanced live pushed obtained next)
    (hle : next ≤ later) :
    Balanced live pushed obtained later := by
  refine ⟨h.inOrder, h.shared, h.numbered, ?_⟩
  intro o ho
  exact Nat.lt_of_lt_of_le (h.below o ho) hle

/-- A push adds an occurrence to the pushed ones and to those left over. -/
theorem push
    {o : Occurrence α}
    (h : Balanced live pushed obtained o.serial)
    (hnext : o.serial < next) :
    Balanced (live ++ [o]) (o :: pushed) obtained next := by
  refine ⟨?_, ?_, ?_, ?_⟩
  · rw [List.reverse_cons]
    exact h.inOrder.append_right [o]
  · have hmove : (live ++ [o] ++ obtained).Perm (o :: (live ++ obtained)) := by
      rw [List.append_assoc, List.singleton_append]
      exact List.perm_middle
    exact hmove.trans (h.shared.cons o)
  · exact List.pairwise_cons.mpr ⟨h.below, h.numbered⟩
  · intro p hp
    rcases List.mem_cons.mp hp with rfl | hp
    · exact hnext
    · exact Nat.lt_trans (h.below p hp) hnext

/-- The oldest occurrence left over is given out. -/
theorem takeOldest
    {o : Occurrence α}
    (h : Balanced (o :: live) pushed obtained next) :
    Balanced live pushed (o :: obtained) next := by
  refine ⟨?_, ?_, h.numbered, h.below⟩
  · exact (List.sublist_cons_self o live).trans h.inOrder
  · exact List.perm_middle.trans h.shared

/-- The newest occurrence left over is given out. -/
theorem takeNewest
    {o : Occurrence α}
    (h : Balanced (live ++ [o]) pushed obtained next) :
    Balanced live pushed (o :: obtained) next := by
  refine ⟨?_, ?_, h.numbered, h.below⟩
  · exact (List.sublist_append_left live [o]).trans h.inOrder
  · have hmove : live ++ o :: obtained = live ++ [o] ++ obtained := by
      rw [List.append_assoc, List.singleton_append]
    rw [hmove]
    exact h.shared

theorem mem_pushed
    (h : Balanced live pushed obtained next)
    {o : Occurrence α}
    (ho : o ∈ obtained) :
    o ∈ pushed := by
  exact h.shared.mem_iff.mp (List.mem_append_right live ho)

theorem nodup_pushed
    (h : Balanced live pushed obtained next) :
    (pushed.map Occurrence.serial).Nodup := by
  rw [List.Nodup, List.pairwise_map]
  exact h.numbered.imp fun hlt => Nat.ne_of_gt hlt

theorem nodup_shared
    (h : Balanced live pushed obtained next) :
    ((live ++ obtained).map Occurrence.serial).Nodup := by
  exact (h.shared.map Occurrence.serial).nodup_iff.mpr h.nodup_pushed

theorem nodup_obtained
    (h : Balanced live pushed obtained next) :
    (obtained.map Occurrence.serial).Nodup := by
  have hboth := h.nodup_shared
  rw [List.map_append] at hboth
  exact (List.nodup_append.mp hboth).2.1

end Balanced
end WorkStealing
