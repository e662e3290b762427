import DroidPerf.SectionsSound

/-!
# DroidPerf.ProfilePathsSound

What the call paths of a profile show.

A context of a section is written by the first line whose call path goes through it, and its
parent is the context of the frame before. So a sample has the call path of its line, and each
of its frames shows what the first line through that frame did (`decodeSamples_eq`).

The way from a context to the root is followed from the end of the path on (`callPath_shown`),
with fuel for as many contexts as the profile has, which is enough as the contexts of a path
are all different (`length_le_profile`).
-/

namespace DroidPerf

open DataBuilder

section Parents

variable {leafInFull : Bool} {methodMap : Int → Option MethodInfo} {T : PathTree TraceFrame}
  {t path : List TraceFrame} {msgs : List ContextMsg} {contextId : Nat}

/-- A message comes after that of the frame before it. -/
theorem mem_withPred {pred : Option Nat} {k : Nat} (hpred : T.HasPath (pred.getD 0) (t.take k))
    (hmsgs : ∀ (j : Nat) msg, msgs[j]? = some msg → T.HasPath msg.contextId (t.take (k + j + 1)))
    {m : Option Nat × ContextMsg} (hm : m ∈ withPred pred msgs) :
    ∃ j, msgs[j]? = some m.2 ∧ T.HasPath (m.1.getD 0) (t.take (k + j)) := by
  induction msgs generalizing pred k with
  | nil => cases hm
  | cons msg msgs ih =>
      rcases List.mem_cons.mp hm with rfl | hm
      · exact ⟨0, rfl, hpred⟩
      · have hfirst : T.HasPath ((some msg.contextId).getD 0) (t.take (k + 1)) := hmsgs 0 msg rfl
        obtain ⟨j, hj, hpath⟩ := ih hfirst
          (fun j msg' hj => by
            have hpath := hmsgs (j + 1) msg' hj
            rwa [show k + (j + 1) + 1 = k + 1 + j + 1 by omega] at hpath) hm
        refine ⟨j + 1, hj, ?_⟩
        rwa [show k + (j + 1) = k + 1 + j by omega]

/-- The parent of a context is that of the call path without its last frame. -/
theorem MsgsOf.parent (h : MsgsOf leafInFull methodMap t T msgs) {m : Option Nat × ContextMsg}
    (hm : m ∈ withPred none msgs) (hpath : T.HasPath m.2.contextId path) :
    T.HasPath (m.1.getD 0) path.dropLast := by
  obtain ⟨j, hj, hparent⟩ := mem_withPred (t := t) (k := 0) .root
    (fun j msg hj => by
      rw [Nat.zero_add]
      exact (h.msg j msg hj).path) hm
  have hlt : j < t.length := h.length ▸ (List.getElem?_eq_some_iff.mp hj).1
  rw [← (h.msg j m.2 hj).path.unique hpath, List.take_succ_eq_append_getElem hlt,
    List.dropLast_concat]
  rwa [Nat.zero_add] at hparent

/-- The same for the messages of all calls. -/
theorem history_parent {calls : List Call} {lines : List TraceLine}
    (h : List.Forall₂ (CallOf leafInFull T) calls lines) {m : Option Nat × ContextMsg}
    (hm : m ∈ history calls) (hpath : T.HasPath m.2.contextId path) :
    T.HasPath (m.1.getD 0) path.dropLast := by
  induction h with
  | nil => cases hm
  | @cons call line calls lines hcall _ ih =>
      rw [history, List.flatMap_cons, List.mem_append] at hm
      rcases hm with hm | hm
      · obtain ⟨msgs, rfl, hmsgs⟩ := hcall.msgs
        exact hmsgs.parent hm hpath
      · exact ih hm

end Parents

/-! ### Call paths

What a path shows is defined on the lines, not on the profile, and then read off the profile. -/

/-- What the contexts on a call path show: each what the first line through it does. -/
def pathShown (leafInFull : Bool) (lines : List TraceLine) (path : List TraceFrame) :
    Option (List Shown) :=
  (List.range path.length).mapM fun i => firstShown leafInFull lines (path.take (i + 1))

section Paths

variable {leafInFull : Bool} {T : PathTree TraceFrame} {calls : List Call}
  {lines : List TraceLine} {path : List TraceFrame} {contextId : Nat}

/-- Functions that agree on the elements of a list make the same list. -/
theorem mapM_congr_mem {A B : Type} {f g : A → Option B} {l : List A}
    (h : ∀ a ∈ l, f a = g a) : l.mapM f = l.mapM g := by
  induction l with
  | nil => rfl
  | cons a l ih =>
      rw [List.forall_mem_cons] at h
      rw [List.mapM_cons, List.mapM_cons, h.1, ih h.2]

/-- A path shows what its front does, and then one frame more. -/
theorem pathShown_concat (leafInFull : Bool) (lines : List TraceLine) (path : List TraceFrame)
    (frame : TraceFrame) : pathShown leafInFull lines (path ++ [frame]) = do
      let shown ← pathShown leafInFull lines path
      let last ← firstShown leafInFull lines (path ++ [frame])
      return shown ++ [last] := by
  have hfront : (List.range path.length).mapM
      (fun i => firstShown leafInFull lines ((path ++ [frame]).take (i + 1))) =
        pathShown leafInFull lines path := by
    refine mapM_congr_mem fun i hi => ?_
    rw [List.take_append_of_le_length (List.mem_range.mp hi)]
  have hlast : (path ++ [frame]).take (path.length + 1) = path ++ [frame] := by simp
  rw [pathShown, List.length_append, List.length_singleton, List.range_succ, List.mapM_append,
    hfront]
  cases hs : firstShown leafInFull lines (path ++ [frame]) <;> simp [hlast, hs]

/-- Something is shown at every frame of a line. -/
theorem exists_firstShown (leafInFull : Bool) (hok : ∀ line ∈ lines, line.Ok) {line : TraceLine}
    (hline : line ∈ lines) (hne : path ≠ []) (hpath : path <+: line.trace.t) :
    ∃ s, firstShown leafInFull lines path = some s := by
  obtain ⟨first, hfirst⟩ : ∃ first, lines.find? (fun l => path <+: l.trace.t) = some first :=
    Option.isSome_iff_exists.mp (List.find?_isSome.mpr ⟨line, hline, by simpa using hpath⟩)
  have hthrough : path <+: first.trace.t := by simpa using List.find?_some hfirst
  have hpos := List.length_pos_of_ne_nil hne
  have hlt : path.length - 1 < first.trace.t.length := by
    have hle := hthrough.length_le
    omega
  obtain ⟨s, hs, -⟩ := (hok first (List.mem_of_find?_eq_some hfirst)).frameShown leafInFull hlt
  exact ⟨s, by simp [firstShown, hfirst, hs]⟩

/-- The call path of a line that is accepted shows something at every frame. -/
theorem exists_pathShown (leafInFull : Bool) (hok : ∀ line ∈ lines, line.Ok) {line : TraceLine}
    (hline : line ∈ lines) (hpath : path <+: line.trace.t) :
    ∃ shown, pathShown leafInFull lines path = some shown := by
  induction path using List.reverseRecOn with
  | nil => exact ⟨[], rfl⟩
  | append_singleton path frame ih =>
      obtain ⟨shown, hshown⟩ := ih ((List.prefix_append _ _).trans hpath)
      obtain ⟨last, hlast⟩ := exists_firstShown leafInFull hok hline
        (List.append_ne_nil_of_right_ne_nil _ (by simp)) hpath
      exact ⟨shown ++ [last], by simp [pathShown_concat, hshown, hlast]⟩

/-- The contexts from the root to one show what their call paths do. -/
theorem callPath_shown {b : Builder} (hok : b.Ok) (hrec : b.Recorded (history calls))
    (hcalls : List.Forall₂ (CallOf leafInFull T) calls lines)
    (hpath : T.HasPath contextId path) {shown : List Shown}
    (hshown : pathShown leafInFull lines path = some shown) {fuel : Nat}
    (hfuel : path.length < fuel) : b.profile.callPath fuel contextId = some shown := by
  -- from the context to the root, so from the end of the path
  induction path using List.reverseRecOn generalizing contextId shown fuel with
  | nil =>
      obtain rfl := hpath.inj .root
      cases hshown
      cases fuel with
      | zero => cases hfuel
      | succ fuel => rfl
  | append_singleton path frame ih =>
      cases fuel with
      | zero => cases hfuel
      | succ fuel =>
          have hne : path ++ [frame] ≠ [] := List.append_ne_nil_of_right_ne_nil _ (by simp)
          simp only [pathShown_concat, Option.bind_eq_bind, Option.bind_eq_some_iff,
            Option.pure_def, Option.some.injEq] at hshown
          obtain ⟨front, hfront, last, hlast, rfl⟩ := hshown
          have hfirst := firstMsg_history hcalls hpath hne
          rw [hlast, Option.map_eq_some_iff] at hfirst
          obtain ⟨m, hm, rfl⟩ := hfirst
          obtain ⟨hmem, hid⟩ := Builder.firstMsg_eq_some hm
          -- the context as the first message for it has written it
          obtain ⟨d, hd, hdid, hparent, hresolves⟩ := hrec.first m hmem (hid ▸ hm)
          have hroot : contextId ≠ 0 := by
            intro hzero
            exact hne ((hzero ▸ hpath).unique .root)
          have hfind : b.profile.context.find? (fun c => c.id = contextId) = some d :=
            find?_id hok.contexts.nodup hd (hdid.trans hid)
          have hup := history_parent hcalls hmem (hid.symm ▸ hpath)
          rw [List.dropLast_concat, ← hparent] at hup
          have hrest := ih hup hfront (by simpa using hfuel)
          simp [Profile.callPath, hroot, hfind, hrest, hok.resolve_eq hresolves]

/-- A call path is no longer than the contexts of the profile. -/
theorem length_le_profile {b : Builder} (hrec : b.Recorded (history calls))
    {methodMap : Int → Option MethodInfo} {t : List TraceFrame} {msgs : List ContextMsg}
    (hmsgs : MsgsOf leafInFull methodMap t T msgs)
    (hmem : ∀ m ∈ withPred none msgs, m ∈ history calls) :
    t.length ≤ b.profile.context.length := by
  -- prefixes of different lengths have different contexts
  have hnodup : (msgs.map ContextMsg.contextId).Nodup := by
    rw [List.nodup_iff_injective_getElem]
    intro i j hij
    have hi : (i : Nat) < msgs.length := by simpa using i.2
    have hj : (j : Nat) < msgs.length := by simpa using j.2
    have hpathi := (hmsgs.msg i _ (List.getElem?_eq_getElem hi)).path
    have hpathj := (hmsgs.msg j _ (List.getElem?_eq_getElem hj)).path
    have hid : msgs[(i : Nat)].contextId = msgs[(j : Nat)].contextId := by simpa using hij
    have hlen := congrArg List.length ((hid ▸ hpathi).unique hpathj)
    rw [List.length_take, List.length_take, ← hmsgs.length] at hlen
    exact Fin.ext (by omega)
  have hsubset : msgs.map ContextMsg.contextId ⊆ b.contextTable.dcontexts.map DContext.id := by
    intro id hid
    obtain ⟨msg, hmsg, rfl⟩ := List.mem_map.mp hid
    rw [← Builder.map_snd_withPred none msgs] at hmsg
    obtain ⟨m, hm, rfl⟩ := List.mem_map.mp hmsg
    obtain ⟨m', hm'⟩ : ∃ m', firstMsg (history calls) m.2.contextId = some m' :=
      Option.isSome_iff_exists.mp (List.find?_isSome.mpr ⟨m, hmem m hm, by simp⟩)
    obtain ⟨hmem', hid'⟩ := Builder.firstMsg_eq_some hm'
    obtain ⟨d, hd, hdid, -⟩ := hrec.first m' hmem' (hid' ▸ hm')
    exact (hdid.trans hid') ▸ List.mem_map_of_mem hd
  have hlen := (List.subperm_of_subset hnodup hsubset).length_le
  rw [List.length_map, List.length_map, hmsgs.length] at hlen
  exact hlen

/-! ### Samples

A sample names the context at the end of the call path of its line. -/

/-- The sample of a line, with what the contexts on its call path show. -/
def lineSample (leafInFull : Bool) (lines : List TraceLine) (line : TraceLine) :
    Option (List Shown × List MetricMsg) := do
  let path ← pathShown leafInFull lines line.trace.t
  return (path, [⟨0, line.trace.m, []⟩])

/-- The samples of lines decode to their call paths. -/
theorem decodeSamples_eq {b : Builder} {S : List (List Char)}
    {samples : List (Nat × List MetricMsg)} (hb : b.After S (history calls) samples)
    (hcalls : List.Forall₂ (CallOf leafInFull T) calls lines) (hok : ∀ line ∈ lines, line.Ok)
    {calls' : List Call} {lines' : List TraceLine}
    (hcalls' : List.Forall₂ (CallOf leafInFull T) calls' lines')
    (hsub : ∀ call ∈ calls', call ∈ calls) (hlines : ∀ line ∈ lines', line ∈ lines)
    {l : List Sample}
    (hl : List.Forall₂ (Sample.Is b.stringTable) l (calls'.flatMap Call.sample)) :
    l.mapM b.profile.decodeSample = lines'.mapM (lineSample leafInFull lines) := by
  induction hcalls' generalizing l with
  | nil =>
      cases hl
      rfl
  | @cons call line calls' lines' hcall _ ih =>
      rw [List.forall_mem_cons] at hsub hlines
      obtain ⟨contextId, hsample, hpath⟩ := hcall.sample
      obtain ⟨msgs, hmsgs, hof⟩ := hcall.msgs
      rw [List.flatMap_cons, hsample] at hl
      cases hl with
      | cons hhead hrest =>
          have hmem : ∀ m ∈ withPred none msgs, m ∈ history calls := by
            intro m hm
            refine List.mem_flatMap.mpr ⟨call, hsub.1, ?_⟩
            rw [hmsgs]
            exact hm
          obtain ⟨shown, hshown⟩ := exists_pathShown leafInFull hok hlines.1
            (List.prefix_refl _)
          -- the fuel of the profile is enough for the path
          have hpath' := callPath_shown hb.ok hb.recorded hcalls hpath hshown
            (Nat.lt_succ_of_le (length_le_profile hb.recorded hof hmem))
          have hmetrics := Builder.mapM_eq_some
            (hhead.2.imp fun _ _ hm => Builder.decodeMetric_eq hm)
          rw [List.mapM_cons, List.mapM_cons, ih hsub.2 hlines.2 hrest]
          simp [Profile.decodeSample, lineSample, hhead.1, hpath', hshown, hmetrics]

end Paths

end DroidPerf
