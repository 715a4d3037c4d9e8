import HalfGates.Proofs.Bits.Refinement

/-!
# Joining more than two views

Whether two views can be joined shows in where they start and stop. An empty view joins with any other and
leaves it where it is; bits join with bits if the first ones fill whole bytes and the others start on a byte
boundary. The ends of the result follow from those of the parts, so that it does not matter which two of
three views are joined first.

## Main definitions

- `BitView.Ends`, `BitView.ends`: which ends of a view lie on byte boundaries
- `BitView.Ends.join`: the ends of two views put together
- `BitView.concat_outcome`: the three outcomes of joining two views
- `BitView.ends_concat`, `BitView.Ends.join_assoc`: joining views joins their ends, which is associative
- `BitView.concat_laws`: when views are joined, what is refused, and in which order they may be joined
-/

namespace HalfGates.BitView

/-- The ends of a view. Those of an empty view do not matter. -/
inductive Ends
  | empty
  /-- Whether the first bit and the last one lie at a byte boundary. -/
  | bits (starts stops : Bool)
  deriving DecidableEq

/-- The ends of a view, as joining sees them. -/
def ends (v : BitView) : Ends :=
  if v.isEmpty then .empty else .bits v.startsAligned v.stopsAligned

namespace Ends

/-- The ends of two views put together, if they can be joined. -/
def join : Ends → Ends → Option Ends
  | e, .empty => some e
  | .empty, e => some e
  | .bits starts stops, .bits starts' stops' =>
    if starts && stops && starts' then some (.bits true stops') else none

theorem join_empty (e : Ends) : e.join .empty = some e := by
  rw [join]

theorem empty_join (e : Ends) : join .empty e = some e := by
  cases e <;> rfl

/-- It does not matter which of three are put together first. -/
theorem join_assoc (a b c : Ends) : ((a.join b).bind fun e => e.join c) = (b.join c).bind a.join := by
  cases a with
  | empty =>
    have hjoin : join .empty = some := funext empty_join
    rw [hjoin, Option.bind_fun_some, Option.bind_some]
  | bits starts stops =>
    cases b with
    | empty => cases c <;> simp [join]
    | bits starts' stops' =>
      cases c with
      | empty => cases starts <;> cases stops <;> cases starts' <;> rfl
      | bits starts'' stops'' =>
        cases starts <;> cases stops <;> cases starts' <;> cases stops' <;> cases starts'' <;> rfl

end Ends

/-- The view fills whole bytes. -/
def IsWhole (v : BitView) : Prop :=
  v.start % 8 = 0 ∧ v.stop % 8 = 0

theorem isWhole_iff {v : BitView} : v.IsWhole ↔ (v.startsAligned && v.stopsAligned) = true := by
  simp [IsWhole, startsAligned, stopsAligned]

theorem startsAligned_iff {v : BitView} : v.startsAligned = true ↔ v.start % 8 = 0 := by
  simp [startsAligned]

theorem ends_of_isEmpty {v : BitView} (h : v.isEmpty = true) : v.ends = .empty :=
  if_pos h

theorem ends_of_not_isEmpty {v : BitView} (h : ¬ v.isEmpty = true) :
    v.ends = .bits v.startsAligned v.stopsAligned :=
  if_neg h

theorem concat_of_isEmpty_right (v : BitView) {w : BitView} (h : w.isEmpty = true) :
    v.concat w = .ok v :=
  if_pos h

theorem concat_of_isEmpty_left {v w : BitView} (hv : v.isEmpty = true) (hw : ¬ w.isEmpty = true) :
    v.concat w = .ok w := by
  rw [concat, if_neg hw, if_pos hv]

section bits

variable {v w : BitView} (hv : ¬ v.isEmpty = true) (hw : ¬ w.isEmpty = true)
include hv hw

/-- Bits behind whole bytes are joined to them; the result starts with the first of its bytes. -/
theorem exists_concat_of_isWhole (hwhole : v.IsWhole) (haligned : w.start % 8 = 0) :
    ∃ u, v.concat w = .ok u ∧ u.start = 0 ∧ u.stop = v.length + w.length := by
  obtain ⟨hstarts, hstops⟩ := Bool.and_eq_true_iff.mp (isWhole_iff.mp hwhole)
  have haligned' : w.startsAligned = true := startsAligned_iff.mpr haligned
  obtain ⟨u, hu, hbits, -⟩ := exists_concat hstarts (length_mod_of_aligned hstarts hstops) haligned'
  have hstart : u.start = 0 := by
    rw [concat, if_neg hw, if_neg hv, hstarts, hstops, toBytes_eq hstarts, toBytes_eq haligned'] at hu
    cases hu
    rfl
  have hlength : u.length = v.length + w.length := by
    rw [← length_toBits, hbits, List.length_append, length_toBits, length_toBits]
  rw [length, hstart, Nat.sub_zero] at hlength
  exact ⟨u, hu, hstart, hlength⟩

/-- A view of bits that does not fill whole bytes is refused in front of other bits. -/
theorem concat_of_not_isWhole (hwhole : ¬ v.IsWhole) : v.concat w = .error (.unaligned v.start v.stop) := by
  rw [concat, if_neg hw, if_neg hv, if_neg (mt isWhole_iff.mpr hwhole)]

/-- Bits that start in the middle of a byte are refused behind other bits. -/
theorem concat_of_not_aligned (hwhole : v.IsWhole) (haligned : ¬ w.start % 8 = 0) :
    v.concat w = .error (.unaligned w.start w.stop) := by
  rw [concat, if_neg hw, if_neg hv, if_pos (isWhole_iff.mp hwhole), toBytes_eq_ite, toBytes_eq_ite,
    if_pos hwhole.1, if_neg haligned]
  rfl

theorem ends_join_of_bits : v.ends.join w.ends =
    if v.startsAligned && v.stopsAligned && w.startsAligned then some (.bits true w.stopsAligned)
    else none := by
  rw [ends_of_not_isEmpty hv, ends_of_not_isEmpty hw, Ends.join]

end bits

/-- The outcomes of joining two views, with the ends of the result. -/
inductive JoinOutcome (v w : BitView) : Prop
  | joined (u : BitView) (hjoin : v.concat w = .ok u) (hends : v.ends.join w.ends = some u.ends)
      (hcause : v.isEmpty = true ∨ w.isEmpty = true ∨ v.IsWhole ∧ w.start % 8 = 0)
  | refusedLeft (hv : ¬ v.isEmpty = true) (hw : ¬ w.isEmpty = true) (hwhole : ¬ v.IsWhole)
      (hjoin : v.concat w = .error (.unaligned v.start v.stop)) (hends : v.ends.join w.ends = none)
  | refusedRight (hv : ¬ v.isEmpty = true) (hw : ¬ w.isEmpty = true) (hwhole : v.IsWhole)
      (haligned : ¬ w.start % 8 = 0) (hjoin : v.concat w = .error (.unaligned w.start w.stop))
      (hends : v.ends.join w.ends = none)

theorem concat_outcome (v w : BitView) : JoinOutcome v w := by
  by_cases hw : w.isEmpty = true
  · refine .joined v (concat_of_isEmpty_right v hw) ?_ (.inr (.inl hw))
    rw [ends_of_isEmpty hw, Ends.join_empty]
  by_cases hv : v.isEmpty = true
  · refine .joined w (concat_of_isEmpty_left hv hw) ?_ (.inl hv)
    rw [ends_of_isEmpty hv, Ends.empty_join]
  have hends := ends_join_of_bits hv hw
  by_cases hwhole : v.IsWhole
  · by_cases haligned : w.start % 8 = 0
    · obtain ⟨u, hu, hstart, hstop⟩ := exists_concat_of_isWhole hv hw hwhole haligned
      refine .joined u hu ?_ (.inr (.inr ⟨hwhole, haligned⟩))
      have hle := v.start_le_stop
      have hle' := w.start_le_stop
      have hne : w.start ≠ w.stop := by simpa [isEmpty] using hw
      simp only [length] at hstop
      have hstops : u.stopsAligned = w.stopsAligned := by
        obtain ⟨hstarts, hstops⟩ := hwhole
        rw [stopsAligned, stopsAligned, hstop, Bool.eq_iff_iff, beq_iff_eq, beq_iff_eq]
        omega
      have hu' : ¬ u.isEmpty = true := by
        rw [isEmpty, hstart, hstop, beq_iff_eq]
        omega
      have hstarts : u.startsAligned = true := startsAligned_iff.mpr (by rw [hstart])
      rw [hends, isWhole_iff.mp hwhole, startsAligned_iff.mpr haligned, ends_of_not_isEmpty hu', hstops,
        hstarts]
      rfl
    · refine .refusedRight hv hw hwhole haligned (concat_of_not_aligned hv hw hwhole haligned) ?_
      rw [hends, if_neg]
      intro h
      exact haligned (startsAligned_iff.mp (Bool.and_eq_true_iff.mp h).2)
  · refine .refusedLeft hv hw hwhole (concat_of_not_isWhole hv hw hwhole) ?_
    rw [hends, if_neg]
    intro h
    exact hwhole (isWhole_iff.mpr (Bool.and_eq_true_iff.mp h).1)

/-- Joining views joins their ends. -/
theorem ends_concat (v w : BitView) : (v.concat w).toOption.map ends = v.ends.join w.ends := by
  cases concat_outcome v w with
  | joined u hjoin hends => rw [hjoin, hends]; rfl
  | refusedLeft _ _ _ hjoin hends => rw [hjoin, hends]; rfl
  | refusedRight _ _ _ _ hjoin hends => rw [hjoin, hends]; rfl

/-- Joining the first two of three views leads as far as joining the last two. -/
theorem ends_concat_concat (a b c : BitView) :
    (a.concat b >>= fun u => u.concat c).toOption.map ends =
      (b.concat c >>= fun u => a.concat u).toOption.map ends := by
  have hleft : (a.concat b >>= fun u => u.concat c).toOption.map ends =
      (a.ends.join b.ends).bind fun e => e.join c.ends := by
    rw [← ends_concat]
    cases hab : a.concat b with
    | error e => rfl
    | ok u => exact ends_concat u c
  have hright : (b.concat c >>= fun u => a.concat u).toOption.map ends =
      (b.ends.join c.ends).bind a.ends.join := by
    rw [← ends_concat]
    cases hbc : b.concat c with
    | error e => rfl
    | ok u => exact ends_concat a u
  rw [hleft, hright, Ends.join_assoc]

theorem concat_eq_ok_iff {v w : BitView} :
    (∃ u, v.concat w = .ok u) ↔
      v.isEmpty = true ∨ w.isEmpty = true ∨ v.IsWhole ∧ w.start % 8 = 0 := by
  cases concat_outcome v w with
  | joined u hjoin _ hcause => exact ⟨fun _ => hcause, fun _ => ⟨u, hjoin⟩⟩
  | refusedLeft hv hw hwhole hjoin => simp [hjoin, hv, hw, hwhole]
  | refusedRight hv hw hwhole haligned hjoin => simp [hjoin, hv, hw, haligned]

theorem concat_eq_error_iff {v w : BitView} {e : BitViewError} :
    v.concat w = .error e ↔ v.isEmpty = false ∧ w.isEmpty = false ∧
      (¬ v.IsWhole ∧ e = .unaligned v.start v.stop ∨
        v.IsWhole ∧ w.start % 8 ≠ 0 ∧ e = .unaligned w.start w.stop) := by
  cases concat_outcome v w with
  | joined u hjoin _ hcause =>
    rw [hjoin]
    constructor
    · rintro ⟨⟩
    · rintro ⟨hv, hw, hrefused⟩
      rcases hcause with h | h | ⟨hwhole, haligned⟩
      · rw [h] at hv
        cases hv
      · rw [h] at hw
        cases hw
      · rcases hrefused with ⟨h, -⟩ | ⟨-, h, -⟩
        · exact absurd hwhole h
        · exact absurd haligned h
  | refusedLeft hv hw hwhole hjoin => simp [hjoin, hv, hw, hwhole, eq_comm]
  | refusedRight hv hw hwhole haligned hjoin => simp [hjoin, hv, hw, hwhole, haligned, eq_comm]

/-- The laws of joining, whatever bytes the views are cut out of. Two views are joined if one of them is empty,
or if the first starts and stops and the second starts on a byte boundary. A refusal names the range of the
first view unless only the second is in the way. Of three views the first two or the last two may be joined
first: both ways lead to a result or neither does, and the results show the same bits. An empty view changes
nothing on either side. -/
theorem concat_laws (a b c : BitView) :
    ((∃ u, a.concat b = .ok u) ↔ a.isEmpty = true ∨ b.isEmpty = true ∨
        (a.start % 8 = 0 ∧ a.stop % 8 = 0) ∧ b.start % 8 = 0) ∧
      (∀ e, a.concat b = .error e ↔ a.isEmpty = false ∧ b.isEmpty = false ∧
        (¬ (a.start % 8 = 0 ∧ a.stop % 8 = 0) ∧ e = .unaligned a.start a.stop ∨
          (a.start % 8 = 0 ∧ a.stop % 8 = 0) ∧ b.start % 8 ≠ 0 ∧ e = .unaligned b.start b.stop)) ∧
      ((∃ ab abc, a.concat b = .ok ab ∧ ab.concat c = .ok abc) ↔
        ∃ bc abc, b.concat c = .ok bc ∧ a.concat bc = .ok abc) ∧
      (∀ ab abc bc abc', a.concat b = .ok ab → ab.concat c = .ok abc → b.concat c = .ok bc →
        a.concat bc = .ok abc' →
          (abc == abc') = true ∧ abc.toBits = a.toBits ++ (b.toBits ++ c.toBits)) ∧
      ∀ empty : BitView, empty.isEmpty = true →
        a.concat empty = .ok a ∧ ∃ u, empty.concat a = .ok u ∧ (u == a) = true := by
  refine ⟨concat_eq_ok_iff, fun e => concat_eq_error_iff, ?_, ?_, ?_⟩
  · have hleft : (∃ ab abc, a.concat b = .ok ab ∧ ab.concat c = .ok abc) ↔
        ∃ abc, (a.concat b >>= fun u => u.concat c) = .ok abc := by
      simp only [bind_eq_ok]
      exact exists_comm
    have hright : (∃ bc abc, b.concat c = .ok bc ∧ a.concat bc = .ok abc) ↔
        ∃ abc, (b.concat c >>= fun u => a.concat u) = .ok abc := by
      simp only [bind_eq_ok]
      exact exists_comm
    rw [hleft, hright, exists_ok_iff_isSome ends, exists_ok_iff_isSome ends, ends_concat_concat]
  · intro ab abc bc abc' hab habc hbc habc'
    have hbits : abc.toBits = a.toBits ++ (b.toBits ++ c.toBits) := by
      rw [toBits_of_concat habc, toBits_of_concat hab, List.append_assoc]
    refine ⟨beq_iff.mpr ?_, hbits⟩
    rw [hbits, toBits_of_concat habc', toBits_of_concat hbc]
  · intro empty hempty
    obtain ⟨u, hu⟩ : ∃ u, empty.concat a = .ok u := concat_eq_ok_iff.mpr (.inl hempty)
    refine ⟨concat_of_isEmpty_right a hempty, u, hu, beq_iff.mpr ?_⟩
    rw [toBits_of_concat hu, toBits_of_isEmpty hempty, List.nil_append]

/-- Behind nothing, the last half of a byte is still in the middle of the byte. -/
example : (do
    let u ← BitView.empty.concat ⟨[0xab], 4, 8, by decide, by decide⟩
    u.concat (singleton true)) = .error (.unaligned 4 8) := by
  rfl

end HalfGates.BitView
