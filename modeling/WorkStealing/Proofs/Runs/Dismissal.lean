import WorkStealing.Proofs.Runs.Completion

/-!
# A flag that was set too early

The flag that ends a run is cleared only after the workers of a run have left. When
it is set at the time of a call, the workers of that run leave at once: the job is
never begun, it stays in the first deque, and that cannot be put back
(`Errand.dismissed`).
-/

namespace WorkStealing
namespace Machine

open Function (update)

namespace Errand

variable {e : Errand} {s : System}

/-- The stages of an errand whose flag was set too early. -/
inductive Dismissed (e : Errand) : System → Prop where
  | outset {k : Nat} {s : System}
      (h : Outset e true k s) :
      Dismissed e s
  /-- The workers leave. -/
  | dispersing {s : System} {count : Nat} {region : Frame} {upper : Nat → List Frame}
      (hstaffed : Staffed s count (e.stack region upper))
      (hpos : 0 < count)
      (hcloses : e.Closes count region)
      (hupper : ∀ u, u < count → upper u = [] ∨
        ∃ v, v < e.deques ∧ upper u = [.loop .poll v .finished 0])
      (hscene : e.Scene s.world (some e.root) false true) :
      Dismissed e s
  | clearing {s : System} {count : Nat}
      (hstaffed : Staffed s count (only e.request.after))
      (hpos : 0 < count)
      (hscene : e.Scene s.world (some e.root) false true) :
      Dismissed e s
  | resetting {s : System} {count : Nat}
      (hstaffed : Staffed s count (only [.run (.reset 0) e.root e.request.thunk, .perform []]))
      (hpos : 0 < count)
      (hscene : e.Scene s.world (some e.root) false false) :
      Dismissed e s
  /-- The run was left by a panic. -/
  | left {s : System}
      (hover : ∀ index, s.advance index = s ∧ s.frameAt index = none)
      (hquiet : Unanswered e.request.world.transcript s.world.transcript) :
      Dismissed e s

namespace Dismissed

/-- A step of which nothing is observed. -/
def Silent (e : Errand) (s : System) (index : Nat) : Prop :=
  Dismissed e (s.advance index) ∧ (s.frameAt index).bind Frame.action? = none ∧
    (s.frameAt index).bind Frame.moment? = none

theorem Silent.unchanged
    {index : Nat}
    (hadvance : s.advance index = s ∧ s.frameAt index = none)
    (h : Dismissed e s) :
    Silent e s index := by
  rw [Silent, hadvance.1, hadvance.2]
  exact ⟨h, rfl, rfl⟩

theorem Silent.of_frame
    {index : Nat} {frame : Frame}
    (hframe : s.frameAt index = some frame)
    (haction : frame.action? = none)
    (hmoment : frame.moment? = none)
    (h : Dismissed e (s.advance index)) :
    Silent e s index := by
  rw [Silent, hframe]
  exact ⟨h, haction, hmoment⟩

/-- A worker that has not left asks whether to end, and leaves. -/
theorem step_leaving
    {count index v : Nat} {region : Frame} {upper : Nat → List Frame}
    (hstaffed : Staffed s count (e.stack region upper))
    (hpos : 0 < count)
    (hcloses : e.Closes count region)
    (hupper : ∀ u, u < count → upper u = [] ∨
      ∃ v, v < e.deques ∧ upper u = [.loop .poll v .finished 0])
    (hscene : e.Scene s.world (some e.root) false true)
    (hlt : index < count)
    (hindex : upper index = [.loop .poll v .finished 0]) :
    Silent e s index := by
  have hmove : ∀ identity, ∃ other, Frame.step s.world identity (.loop .poll v .finished 0) =
      .go (s.world.trace (.leaving v)) other [] := by
    intro identity
    refine ⟨identity, ?_⟩
    rw [Frame.step, LoopPoint.step]
    simp only [Stop.holds, hscene.finished]
    rfl
  obtain ⟨hframe, w, other, next, ⟨identity, heq⟩, hnext, hworld⟩ :=
    advance_worker hstaffed hlt hindex
      (fun move (h : ∃ identity, move = .go (s.world.trace (.leaving v)) identity []) => by
        obtain ⟨identity, rfl⟩ := h
        exact ⟨_, _, _, rfl⟩)
      fun identity => by
        obtain ⟨other, hother⟩ := hmove identity
        exact ⟨other, hother⟩
  cases heq
  refine .of_frame hframe rfl rfl (.dispersing hnext hpos hcloses (fun u hu => ?_) ?_)
  · by_cases hne : u = index
    · rw [hne, Function.update_self]
      exact Or.inl rfl
    · rw [Function.update_of_ne hne]
      exact hupper u hu
  · rw [hworld]
    exact hscene.trace _

/-- The calling thread has left, and goes on with the region. -/
theorem step_region
    {count : Nat} {region : Frame} {upper : Nat → List Frame}
    (hstaffed : Staffed s count (e.stack region upper))
    (hpos : 0 < count)
    (hcloses : e.Closes count region)
    (hupper : ∀ u, u < count → upper u = [] ∨
      ∃ v, v < e.deques ∧ upper u = [.loop .poll v .finished 0])
    (hscene : e.Scene s.world (some e.root) false true)
    (hzero : upper 0 = []) :
    Silent e s 0 := by
  have hframes : e.stack region upper 0 = region :: e.request.after := by
    rw [stack, hzero]
    rfl
  have hothers : ∀ u, u ≠ 0 → e.stack region upper u = upper u := by
    intro u hu
    rw [stack, if_neg hu, List.append_nil]
  have hframe := hstaffed.frameAt hpos hframes
  cases region with
  | crew crew outer =>
      obtain ⟨hnext, hworld⟩ := hstaffed.advance_of_go hpos hframes fun identity => ⟨outer, rfl⟩
      have hdisband : Staffed (s.advance 0) count (e.stack (.disband crew none) upper) := by
        refine hnext.congr fun u hu => ?_
        by_cases hsame : u = 0
        · rw [hsame, Function.update_self, stack, hzero]
          rfl
        · rw [Function.update_of_ne hsame, hothers u hsame, stack, if_neg hsame, List.append_nil]
      exact .of_frame hframe rfl rfl
        (.dispersing hdisband hpos ⟨rfl, hcloses⟩ hupper (hworld ▸ hscene))
  | disband crew pending =>
      obtain ⟨rfl, hcrew⟩ := hcloses
      refine .of_frame hframe rfl rfl ?_
      rcases hstaffed.advance_of_disband hpos hcrew hframes with
        ⟨hover, hnext, hworld⟩ | ⟨-, hsame⟩
      · exact .clearing (only_of_left hnext hover) hpos (hworld ▸ hscene)
      · rw [hsame]
        exact .dispersing hstaffed hpos ⟨rfl, hcrew⟩ hupper hscene
  | turns pending outer =>
      obtain ⟨rfl, hworkers⟩ := hcloses
      refine .of_frame hframe rfl rfl ?_
      cases pending with
      | nil =>
          obtain ⟨hnext, hworld⟩ := hstaffed.advance_of_go hpos hframes fun identity => ⟨outer, rfl⟩
          have hover : ∀ u, u ≠ 0 → u < 1 → e.stack (.turns [] outer) upper u = [] :=
            fun u hne hlt => absurd (Nat.lt_one_iff.mp hlt) hne
          exact .clearing (only_of_left hnext hover) hpos (hworld ▸ hscene)
      | cons v pending =>
          obtain ⟨hnext, hworld⟩ := hstaffed.advance_of_go hpos hframes
            fun identity => ⟨some v, rfl⟩
          obtain ⟨hv, hrest⟩ := List.forall_mem_cons.mp hworkers
          have hturn : Staffed (s.advance 0) 1
              (e.stack (.turns pending outer) fun _ => [.loop .poll v .finished 0]) := by
            refine hnext.congr fun u hu => ?_
            rw [Nat.lt_one_iff.mp hu, Function.update_self]
            rfl
          exact .dispersing hturn hpos ⟨rfl, hrest⟩ (fun u _ => Or.inr ⟨v, hv, rfl⟩)
            (hworld ▸ hscene)
  | _ =>
      exact absurd hcloses id

/-- The job is still in the first deque, so that this cannot be put back. -/
theorem step_resetting
    (hready : e.Ready)
    {count : Nat}
    (hstaffed : Staffed s count (only [.run (.reset 0) e.root e.request.thunk, .perform []]))
    (hpos : 0 < count)
    (hscene : e.Scene s.world (some e.root) false false) :
    Silent e s 0 := by
  have hzero : 0 < e.deques := Nat.lt_of_lt_of_le hready.manned hready.few
  have hmove : ∀ identity, Frame.step s.world identity
      (.run (.reset 0) e.root e.request.thunk) = .fail s.world (.panic .resetNonEmpty) :=
    fun identity => Frame.step_reset_of_error (by rw [hscene.lone.count]; exact hzero)
      (hscene.lone.resetDeque_zero hzero) identity e.root e.request.thunk
  obtain ⟨-, hworld, hover⟩ := Stage.over_of_panic hstaffed hpos hmove
  refine .of_frame (hstaffed.frameAt hpos (Function.update_self _ _ _)) rfl rfl (.left hover ?_)
  rw [hworld]
  exact hscene.quiet

/-- Every step keeps to these stages, and nothing is observed of it. -/
theorem advance
    (hready : e.Ready)
    (hfinished : e.request.world.scheduler.finished = true)
    (h : Dismissed e s)
    (index : Nat) :
    Silent e s index := by
  cases h with
  | outset h =>
      by_cases hindex : index = 0
      · subst hindex
        refine ⟨?_, h.silent⟩
        rcases h.advance hready hfinished with ⟨l, -, hnext⟩ | ⟨count, region, upper, hopened⟩
        · exact .outset hnext
        · exact .dispersing hopened.staffed hopened.manned hopened.closes
            (fun u hu => Or.inr (hopened.others u hu)) hopened.scene
      · exact .unchanged (h.advance_other hindex) (.outset h)
  | @dispersing _ count region upper hstaffed hpos hcloses hupper hscene =>
      have hsame := Dismissed.dispersing hstaffed hpos hcloses hupper hscene
      by_cases hlt : index < count
      · rcases hupper index hlt with hleft | ⟨v, hv, hasks⟩
        · by_cases hindex : index = 0
          · subst hindex
            exact step_region hstaffed hpos hcloses hupper hscene hleft
          · refine .unchanged (hstaffed.advance_of_over fun _ => ?_) hsame
            rw [stack, hleft, if_neg hindex]
            rfl
        · exact step_leaving hstaffed hpos hcloses hupper hscene hlt hasks
      · exact .unchanged (hstaffed.advance_of_over fun h => absurd h hlt) hsame
  | clearing hstaffed hpos hscene =>
      by_cases hindex : index = 0
      · subst hindex
        obtain ⟨hnext, hworld⟩ := hstaffed.advance_of_go hpos (Function.update_self _ _ _)
          fun identity => ⟨identity, rfl⟩
        refine .of_frame (hstaffed.frameAt hpos (Function.update_self _ _ _)) rfl rfl
          (.resetting (Stage.staffed_only hnext) hpos ?_)
        rw [hworld]
        exact ⟨hscene.lone.congr rfl rfl, rfl, hscene.flags, hscene.body, hscene.quiet⟩
      · exact .unchanged (Stage.advance_only hstaffed hindex) (.clearing hstaffed hpos hscene)
  | resetting hstaffed hpos hscene =>
      by_cases hindex : index = 0
      · subst hindex
        exact step_resetting hready hstaffed hpos hscene
      · exact .unchanged (Stage.advance_only hstaffed hindex) (.resetting hstaffed hpos hscene)
  | left hover hquiet =>
      exact .unchanged (hover index) (.left hover hquiet)

/-- An errand whose flag was set too early keeps to these stages, and its job is never begun. -/
theorem run
    (hready : e.Ready)
    (hfinished : e.request.world.scheduler.finished = true)
    (identity : Option Nat) (schedule : List Nat) :
    Dismissed e ((e.request.system identity).run schedule) ∧
      (e.request.system identity).performed schedule = [] ∧
      (e.request.system identity).history schedule = [] := by
  induction schedule using List.reverseRecOn with
  | nil =>
      exact ⟨.outset (.calling (.single _ _ _) rfl), rfl, rfl⟩
  | append_singleton schedule index ih =>
      obtain ⟨hstage, hperformed, hhistory⟩ := ih
      obtain ⟨hnext, haction, hmoment⟩ := hstage.advance hready hfinished index
      rw [System.run_append, System.performed_append, System.history_append, hperformed, hhistory]
      simp only [System.run_cons, System.run_nil, System.performed, System.history, haction,
        hmoment, Option.toList_none, List.append_nil]
      exact ⟨hnext, trivial, trivial⟩

/-- Nothing is reported at any of these stages. -/
theorem quiet
    (h : Dismissed e s) :
    Unanswered e.request.world.transcript s.world.transcript := by
  cases h with
  | outset h =>
      cases h with
      | calling hstaffed hworld =>
          rw [hworld]
          exact .refl _
      | claiming hstaffed hworld | enqueuing hstaffed hworld =>
          rw [hworld]
          exact e.request.transcript_called ▸ .refl _
      | announcing hstaffed hstyle hscene | opening hstaffed hstyle hscene
      | entering hstaffed hregion hscene =>
          exact hscene.quiet
  | dispersing hstaffed hpos hcloses hupper hscene | clearing hstaffed hpos hscene
  | resetting hstaffed hpos hscene =>
      exact hscene.quiet
  | left hover hquiet =>
      exact hquiet

end Dismissed

/-- An errand on a clean scheduler whose flag is set is over without its job under every schedule:
the job is never begun, nothing of it is performed, and the run never reports. -/
theorem dismissed
    (hready : e.Ready)
    (hfinished : e.request.world.scheduler.finished = true)
    (identity : Option Nat) (schedule : List Nat) :
    (e.request.system identity).performed schedule = [] ∧
      (e.request.system identity).history schedule = [] ∧
      ∀ outcome, ¬ e.request.world.Reports e.request.thunk ((e.request.system identity).run schedule) outcome := by
  obtain ⟨hstage, hperformed, hhistory⟩ := Dismissed.run hready hfinished identity schedule
  refine ⟨hperformed, hhistory, ?_⟩
  rintro outcome ⟨events, heq, hmem⟩
  obtain ⟨others, hothers, hnone⟩ := hstage.quiet
  rw [heq, List.append_cancel_left_eq] at hothers
  subst hothers
  unfold ranEvent at hmem
  split at hmem
  · exact (hnone outcome).2 hmem
  · exact (hnone outcome).1 hmem

end Errand
end Machine
end WorkStealing
