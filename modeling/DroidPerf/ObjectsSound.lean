import DroidPerf.Agent

/-!
# DroidPerf.ObjectsSound

What the agent keeps about live objects: the number of bytes in `active_memory_usage`, and the
allocation sites in `object_live_cycle` and `object_info`.

An allocation adds the object's size to the counter and a free subtracts its tag, so the
counter is the size of the live objects exactly as long as tags are sizes
(`alwaysBalanced_iff`). `object_info` is the bracketed list of the recorded sites as long as no
site is recorded twice and no free runs while one is recorded: a free writes the sites back
without brackets (`alwaysListsSites_iff`).

Both are inductions over the run that carry the invariant forward, in `Balanced.always_iff` and
`ListsSites.always_iff`. For the second one, what breaks the list cannot be mended by a later
site of the same allocation: the length of `object_info` is compared with the length it should
have (`sitesLength`), and a surplus stays (`foldl_addSite_surplus`).
-/

namespace DroidPerf

open Text

/-! ### Active memory

Only the two updates of the counter matter. `objectAlloc_usage` and `objectFree_eq` below say
that the callbacks make them. -/

/-- The two updates of the counter, with the object they are for. -/
inductive UsageEvent where
  | alloc (object size : Nat)
  | free (object tag : Nat)
  deriving DecidableEq, Repr

/-- The agent's variables, and the objects allocated and not yet freed with their
sizes. -/
structure UsageState where
  globals : Globals
  live : List (Nat × Nat)

namespace UsageState

/-- Before the first event. -/
def start : UsageState := ⟨.start, []⟩

/-- One update, in any thread. -/
def step (s : UsageState) : UsageEvent → UsageState
  | .alloc object size => ⟨countAlloc size s.globals, (object, size) :: s.live⟩
  | .free object tag => ⟨countFree tag s.globals, s.live.eraseP fun e => e.1 = object⟩

/-- What is assumed of the VM: an object is allocated once, is freed after it was
allocated, and its free carries a tag. -/
def WellFormed (s : UsageState) : List UsageEvent → Prop
  | [] => True
  | .alloc object size :: events =>
    (∀ e ∈ s.live, e.1 ≠ object) ∧ (s.step (.alloc object size)).WellFormed events
  | .free object tag :: events =>
    (∃ e ∈ s.live, e.1 = object) ∧ tag ≠ 0 ∧ (s.step (.free object tag)).WellFormed events

/-- The counter is the size of the live objects. -/
def Balanced (s : UsageState) : Prop :=
  s.globals.activeMemoryUsage = (s.live.map Prod.snd).sum % 2 ^ 64

/-- The counter is right in every state of the run. -/
def AlwaysBalanced (s : UsageState) : List UsageEvent → Prop
  | [] => s.Balanced
  | event :: events => s.Balanced ∧ (s.step event).AlwaysBalanced events

/-- Every freed object's tag is its size. -/
def FreesBySize (s : UsageState) : List UsageEvent → Prop
  | [] => True
  | .alloc object size :: events => (s.step (.alloc object size)).FreesBySize events
  | .free object tag :: events =>
    (∀ e, s.live.find? (fun e => e.1 = object) = some e → tag % 2 ^ 64 = e.2 % 2 ^ 64) ∧
      (s.step (.free object tag)).FreesBySize events

/-- Nothing is live and nothing is counted. -/
theorem balanced_start : start.Balanced := rfl

/-- An allocation adds its size to both sides. -/
theorem Balanced.alloc {s : UsageState} (h : s.Balanced) (object size : Nat) :
    (s.step (.alloc object size)).Balanced := by
  unfold Balanced at h
  show add64 s.globals.activeMemoryUsage size = (size + (s.live.map Prod.snd).sum) % 2 ^ 64
  unfold add64
  omega

/-- The sizes without those of one object. -/
theorem sum_eraseP {live : List (Nat × Nat)} {object : Nat} {e : Nat × Nat}
    (h : live.find? (fun e => e.1 = object) = some e) :
    (live.map Prod.snd).sum = e.2 + ((live.eraseP fun e => e.1 = object).map Prod.snd).sum := by
  induction live with
  | nil => cases h
  | cons x live ih =>
      by_cases hx : x.1 = object
      · rw [List.find?_cons_of_pos (by simpa using hx)] at h
        cases h
        rw [List.eraseP_cons_of_pos (by simpa using hx), List.map_cons, List.sum_cons]
      · simp only [List.find?_cons, hx, decide_false] at h
        simp only [List.eraseP_cons, hx, decide_false, cond_false, List.map_cons, List.sum_cons,
          ih h]
        omega

/-- A free subtracts the tag, which is right if it is the size. -/
theorem Balanced.free_iff {s : UsageState} (h : s.Balanced) {object : Nat} {e : Nat × Nat}
    (he : s.live.find? (fun e => e.1 = object) = some e) (tag : Nat) :
    (s.step (.free object tag)).Balanced ↔ tag % 2 ^ 64 = e.2 % 2 ^ 64 := by
  unfold Balanced at h ⊢
  show sub64 s.globals.activeMemoryUsage tag =
    ((s.live.eraseP fun e => e.1 = object).map Prod.snd).sum % 2 ^ 64 ↔ _
  rw [h, sum_eraseP he]
  unfold sub64
  omega

/-- A run that is always balanced is so at its start. -/
theorem AlwaysBalanced.head {s : UsageState} {events : List UsageEvent}
    (h : s.AlwaysBalanced events) : s.Balanced := by
  cases events with
  | nil => exact h
  | cons event events => exact h.1

/-- From a balanced state on, a run is always balanced exactly when it frees objects by their
sizes. -/
theorem Balanced.always_iff {s : UsageState} {events : List UsageEvent} (h : s.Balanced)
    (hwf : s.WellFormed events) : s.AlwaysBalanced events ↔ s.FreesBySize events := by
  induction events generalizing s with
  | nil => exact ⟨fun _ => trivial, fun _ => h⟩
  | cons event events ih =>
      cases event with
      | alloc object size =>
          have hrest := ih (h.alloc object size) hwf.2
          exact ⟨fun hall => hrest.mp hall.2, fun hfrees => ⟨h, hrest.mpr hfrees⟩⟩
      | free object tag =>
          obtain ⟨⟨x, hx, hobj⟩, -, hwf⟩ := hwf
          -- a freed object is live, so it has a size to compare the tag with
          obtain ⟨e, he⟩ : ∃ e, s.live.find? (fun e => e.1 = object) = some e :=
            Option.isSome_iff_exists.mp (List.find?_isSome.mpr ⟨x, hx, by simpa using hobj⟩)
          have hfree := h.free_iff he tag
          constructor
          · intro hall
            have hnext := hall.2.head
            refine ⟨fun e' he' => ?_, (ih hnext hwf).mp hall.2⟩
            rw [he] at he'
            exact Option.some.inj he' ▸ hfree.mp hnext
          · intro hsizes
            obtain ⟨hsize, hfrees⟩ := hsizes
            have hnext := hfree.mpr (hsize e he)
            exact ⟨h, (ih hnext hwf).mpr hfrees⟩

end UsageState

/-- **The memory counter.** Over every run the counter is the size of the live objects, modulo
2^64, exactly when each freed object's tag is its size. -/
theorem alwaysBalanced_iff (events : List UsageEvent) (hwf : UsageState.start.WellFormed events) :
    UsageState.start.AlwaysBalanced events ↔ UsageState.start.FreesBySize events :=
  UsageState.balanced_start.always_iff hwf

/-- An object of 40 bytes tagged with 40. -/
theorem alwaysBalanced_tag_is_size :
    UsageState.start.AlwaysBalanced [.alloc 1 40, .free 1 40] := by
  refine (alwaysBalanced_iff _ ?_).mpr ?_
  · exact ⟨by simp [UsageState.start], ⟨(1, 40), List.mem_cons_self, rfl⟩, by decide, trivial⟩
  · refine ⟨fun e he => ?_, trivial⟩
    cases he
    rfl

/-- An object of 40 bytes tagged with 7 leaves 33 bytes in the counter. -/
theorem tag_not_size_not_balanced :
    UsageState.start.WellFormed [.alloc 1 40, .free 1 7] ∧
      ¬ UsageState.start.AlwaysBalanced [.alloc 1 40, .free 1 7] := by
  refine ⟨⟨by simp [UsageState.start], ⟨(1, 40), List.mem_cons_self, rfl⟩, by decide, trivial⟩, ?_⟩
  intro hall
  obtain ⟨-, -, hlast⟩ := hall
  have hcounter : sub64 (add64 0 40) 7 = 0 % 2 ^ 64 := hlast
  exact absurd hcounter (by decide)

/-! ### The sites an allocation records

The loop of `ObjectAllocCallback` writes a stream and changes the global variables. Here only
the variables are followed: what the stream did can only have stopped the loop. -/

/-- The sites that the loop over the frames records; each one makes the class name
longer. -/
def allocSites (a : AllocArgs) : List Frame → List Char → List (List Char × Int)
  | [], _ => []
  | frame :: frames, name =>
    if frame.method = a.midGetName then allocSites a frames name
    else
      match frame.lineTable with
      | none => allocSites a frames name
      | some t =>
        if isRecorded name a.size then
          (name ++ ".java".toList, t.line frame.location) ::
            allocSites a frames (name ++ ".java".toList)
        else allocSites a frames name

/-- The loop over the frames adds the sites of its frames. -/
theorem allocFrames_globals {a : AllocArgs} {frames : List Frame} {l l' : AllocLoop}
    (h : frames.foldlM (allocFrame a) l = .ok l') :
    l'.globals = (allocSites a frames l.className).foldl (addSite a) l.globals := by
  induction frames generalizing l with
  | nil =>
      cases h
      rfl
  | cons frame frames ih =>
      rw [List.foldlM_cons] at h
      obtain ⟨l₁, hframe, h⟩ := bind_eq_ok.mp h
      unfold allocSites
      rw [ih h]
      unfold allocFrame at hframe
      split at hframe
      · rename_i hget
        cases hframe
        rw [if_pos hget]
      · rename_i hget
        rw [if_neg hget]
        -- a frame without a line table is written, but is no site
        cases hline : frame.lineTable with
        | none =>
            rw [hline] at hframe
            obtain ⟨o, -, hframe⟩ := bind_eq_ok.mp hframe
            cases hframe
            rfl
        | some t =>
            rw [hline] at hframe
            obtain ⟨o, -, hframe⟩ := bind_eq_ok.mp hframe
            cases hframe
            simp only [recordSite]
            split <;> rfl

/-- The frames of a stack are gone through from the last one on. -/
theorem allocTrace_globals {a : AllocArgs} {frames : List Frame} {count : Nat} {g g' : Globals}
    {o o' : Output} (h : allocTrace a frames count g o = .ok (g', o')) :
    g' = (allocSites a frames.reverse (className a.classSignature)).foldl (addSite a) g := by
  obtain ⟨l, hloop, h⟩ := bind_eq_ok.mp h
  have hglobals := allocFrames_globals hloop
  split at h
  · obtain ⟨o₁, -, h⟩ := bind_eq_ok.mp h
    cases h
    exact hglobals
  · cases h
    exact hglobals

/-- The sites that `ObjectAllocCallback` records on a thread. -/
def recordedSites (w : AgentThread) (a : AllocArgs) : List (List Char × Int) :=
  match w.tls.current.contextState, w.tls.current.outputStateAlloc, a.stackTrace with
  | some _, some _, some frames => allocSites a frames.reverse (className a.classSignature)
  | _, _, _ => []

/-- `ObjectAllocCallback` counts the object and records its sites. -/
theorem objectAlloc_globals {a : AllocArgs} {w w' : AgentThread}
    (h : runStmts (objectAlloc a) w = .ok w') :
    w'.user.globals =
      (recordedSites w a).foldl (addSite a) (countAlloc a.size w.user.globals) := by
  unfold runStmts objectAlloc at h
  simp only [List.foldlM_cons, List.foldlM_nil, ok_bind] at h
  obtain ⟨w₁, h, hw⟩ := bind_eq_ok.mp h
  cases hw
  unfold recordedSites
  cases hctx : w.tls.current.contextState with
  | none =>
      simp only [hctx] at h ⊢
      cases h
      rfl
  | some context =>
      cases hout : w.tls.current.outputStateAlloc with
      | none =>
          simp only [hctx, hout] at h ⊢
          cases h
          rfl
      | some o =>
          cases htrace : a.stackTrace with
          | none =>
              simp only [hctx, hout, htrace] at h ⊢
              cases h
              rfl
          | some frames =>
              simp only [hctx, hout, htrace] at h ⊢
              obtain ⟨⟨g, o'⟩, htr, h⟩ := bind_eq_ok.mp h
              cases h
              exact allocTrace_globals htr

/-- Adding sites does not change the memory counter. -/
@[simp] theorem foldl_addSite_usage (a : AllocArgs) (sites : List (List Char × Int)) (g : Globals) :
    (sites.foldl (addSite a) g).activeMemoryUsage = g.activeMemoryUsage := by
  induction sites generalizing g with
  | nil => rfl
  | cons site sites ih => exact ih (addSite a g site)

/-- `ObjectAllocCallback` adds the size to the counter and nothing else. -/
theorem objectAlloc_usage {a : AllocArgs} {w w' : AgentThread}
    (h : runStmts (objectAlloc a) w = .ok w') :
    w'.user.globals.activeMemoryUsage =
      (countAlloc a.size w.user.globals).activeMemoryUsage := by
  rw [objectAlloc_globals h, foldl_addSite_usage]

/-- A free writes the short identifiers of the sites one after another. -/
theorem freeLoop_eq {tag : Nat} {strs : List (List Char)} {info info' : List Char}
    (h : freeLoop tag strs info = .ok info') : info' = info ++ strs.flatMap shortIdentifier := by
  induction strs generalizing info with
  | nil =>
      cases h
      simp
  | cons str strs ih =>
      unfold freeLoop at h
      split at h
      · cases h
      · split at h
        · cases h
        · rw [ih h, List.flatMap_cons, List.append_assoc]

/-- `ObjectFreeCallback`, when it returns, subtracts the tag, keeps the set and writes
the short identifiers one after another. -/
theorem objectFree_eq {traversal : ListSet.Traversal (List Char)} {tag : Nat} {g g' : Globals}
    (h : objectFree traversal tag g = .ok g') :
    g' = { countFree tag g with
      objectInfo := (traversal.list g.objectLiveCycle).flatMap shortIdentifier } := by
  obtain ⟨info, hloop, h⟩ := bind_eq_ok.mp h
  cases h
  rw [freeLoop_eq hloop]
  rfl

/-! ### The text of the recorded sites

A site is in the set under its identifier and in `object_info` in brackets. The two are in step
as long as every site that is added is fresh. -/

/-- An entry of `object_live_cycle` as `object_info` should hold it. -/
def bracketed (str : List Char) : List Char := '[' :: (shortIdentifier str ++ [']'])

/-- `object_info` holds the recorded sites, in some order and each once. -/
def ListsSites (g : Globals) : Prop :=
  ∃ order : List (List Char), order.Perm g.objectLiveCycle.elems ∧ g.objectInfo = order.flatMap bracketed

/-- The converter's stripping finds the class name behind `object_info`. -/
def StripsToClass (g : Globals) : Prop :=
  ∀ name : List Char, ']' ∉ name → afterLast ']' (g.objectInfo ++ name) = name

/-- A site that can be added: its identifier is new, and its short identifier is the
part of it before `#`. -/
def FreshSite (a : AllocArgs) (g : Globals) (site : List Char × Int) : Prop :=
  objIdentifier site.1 site.2 a.size a.tag ∉ g.objectLiveCycle.elems ∧ '#' ∉ site.1

/-- The length that `object_info` should have. -/
def sitesLength (g : Globals) : Nat :=
  (g.objectLiveCycle.elems.map fun str => (bracketed str).length).sum

/-- The brackets alone take two characters for each site. -/
theorem sitesLength_eq (g : Globals) :
    sitesLength g = (g.objectLiveCycle.elems.map fun str => (shortIdentifier str).length).sum +
      2 * g.objectLiveCycle.elems.length := by
  unfold sitesLength
  induction g.objectLiveCycle.elems with
  | nil => rfl
  | cons str strs ih =>
      have hlen : (bracketed str).length = (shortIdentifier str).length + 2 := by simp [bracketed]
      rw [List.map_cons, List.sum_cons, ih, hlen, List.map_cons, List.sum_cons, List.length_cons]
      omega

/-- A list in brackets can be stripped. -/
theorem ListsSites.strips {g : Globals} (h : ListsSites g) : StripsToClass g := by
  obtain ⟨order, -, hinfo⟩ := h
  intro name hname
  rw [hinfo]
  rcases List.eq_nil_or_concat order with rfl | ⟨init, last, rfl⟩
  · exact afterLast_of_notMem hname
  · have hend : (init ++ [last]).flatMap bracketed ++ name =
        (init.flatMap bracketed ++ '[' :: shortIdentifier last) ++ ']' :: name := by
      simp [bracketed]
    rw [List.concat_eq_append, hend]
    exact afterLast_append hname

/-- It has the length that it should have. -/
theorem ListsSites.length_eq {g : Globals} (h : ListsSites g) :
    g.objectInfo.length = sitesLength g := by
  obtain ⟨order, hperm, hinfo⟩ := h
  rw [hinfo, List.length_flatMap]
  exact (hperm.map _).sum_nat

/-! An allocation adds at least as much to `object_info` as to the set, and more when
the site is not fresh. -/

/-- The part of an identifier in front of `#` is the short identifier, for a name without `#`. -/
theorem shortIdentifier_objIdentifier_of_notMem {name : List Char} (h : '#' ∉ name)
    (lineNumber : Int) (size tag : Nat) :
    shortIdentifier (objIdentifier name lineNumber size tag) =
      objShortIdentifier name lineNumber size := by
  have hdecimal : ∀ i, '#' ∉ decimal i := fun i => (numeric_decimal i).notMem (by decide) (by decide)
  have hshort : '#' ∉ objShortIdentifier name lineNumber size := by
    unfold objShortIdentifier
    simp only [List.mem_append, not_or]
    exact ⟨⟨⟨⟨h, by decide⟩, hdecimal _⟩, by decide⟩, hdecimal _⟩
  unfold shortIdentifier objIdentifier
  rw [List.takeWhile_append_of_pos]
  · simp
  · intro c hc
    simpa using fun hcc : c = '#' => hshort (hcc ▸ hc)

/-- If the name has a `#` itself, the part in front of it is shorter. -/
theorem shortIdentifier_objIdentifier_of_mem {name : List Char} (h : '#' ∈ name)
    (lineNumber : Int) (size tag : Nat) :
    (shortIdentifier (objIdentifier name lineNumber size tag)).length <
      (objShortIdentifier name lineNumber size).length := by
  obtain ⟨before, after, rfl⟩ := List.append_of_mem h
  have hsplit : objIdentifier (before ++ '#' :: after) lineNumber size tag =
      before ++ '#' :: (after ++ (";LN".toList ++ (decimal lineNumber ++
        (";sz".toList ++ (decimal size ++ '#' :: decimal tag))))) := by
    simp [objIdentifier, objShortIdentifier]
  have hle : (shortIdentifier (objIdentifier (before ++ '#' :: after) lineNumber size tag)).length
      ≤ before.length := by
    unfold shortIdentifier
    rw [hsplit, List.takeWhile_append]
    split
    · simp
    · exact (List.takeWhile_prefix _).length_le
  refine lt_of_le_of_lt hle ?_
  simp only [objShortIdentifier, List.length_append, List.length_cons]
  omega

/-- The part in front of `#` is never longer than the short identifier. -/
theorem shortIdentifier_objIdentifier_le (name : List Char) (lineNumber : Int) (size tag : Nat) :
    (shortIdentifier (objIdentifier name lineNumber size tag)).length ≤
      (objShortIdentifier name lineNumber size).length := by
  by_cases h : '#' ∈ name
  · exact (shortIdentifier_objIdentifier_of_mem h lineNumber size tag).le
  · rw [shortIdentifier_objIdentifier_of_notMem h]

/-- A site adds its short identifier and two brackets to `object_info`. -/
theorem addSite_info_length (a : AllocArgs) (g : Globals) (site : List Char × Int) :
    (addSite a g site).objectInfo.length =
      g.objectInfo.length + ((objShortIdentifier site.1 site.2 a.size).length + 2) := by
  simp [addSite]

/-- A site that is in the set already adds nothing to the length it should have. -/
theorem sitesLength_addSite_of_mem {a : AllocArgs} {g : Globals} {site : List Char × Int}
    (h : objIdentifier site.1 site.2 a.size a.tag ∈ g.objectLiveCycle.elems) :
    sitesLength (addSite a g site) = sitesLength g := by
  unfold sitesLength addSite
  rw [ListSet.insert_of_mem h]

/-- A site that is new to the set adds its short identifier as it is cut off there, and two
brackets. -/
theorem sitesLength_addSite_of_notMem {a : AllocArgs} {g : Globals} {site : List Char × Int}
    (h : objIdentifier site.1 site.2 a.size a.tag ∉ g.objectLiveCycle.elems) :
    sitesLength (addSite a g site) = sitesLength g +
      ((shortIdentifier (objIdentifier site.1 site.2 a.size a.tag)).length + 2) := by
  unfold sitesLength addSite
  rw [ListSet.elems_insert_of_notMem h]
  simp [bracketed]

/-- A surplus stays when another site is added. -/
theorem addSite_surplus {a : AllocArgs} {g : Globals} (site : List Char × Int)
    (h : sitesLength g < g.objectInfo.length) :
    sitesLength (addSite a g site) < (addSite a g site).objectInfo.length := by
  have hle := shortIdentifier_objIdentifier_le site.1 site.2 a.size a.tag
  rw [addSite_info_length]
  by_cases hmem : objIdentifier site.1 site.2 a.size a.tag ∈ g.objectLiveCycle.elems
  · rw [sitesLength_addSite_of_mem hmem]
    omega
  · rw [sitesLength_addSite_of_notMem hmem]
    omega

/-- A surplus stays when several sites are added. -/
theorem foldl_addSite_surplus {a : AllocArgs} {g : Globals} (sites : List (List Char × Int))
    (h : sitesLength g < g.objectInfo.length) :
    sitesLength (sites.foldl (addSite a) g) < (sites.foldl (addSite a) g).objectInfo.length := by
  induction sites generalizing g with
  | nil => exact h
  | cons site sites ih => exact ih (addSite_surplus site h)

/-- A site that is not fresh leaves more in `object_info` than the set has. -/
theorem addSite_surplus_of_not_fresh {a : AllocArgs} {g : Globals} {site : List Char × Int}
    (h : ListsSites g) (hfresh : ¬ FreshSite a g site) :
    sitesLength (addSite a g site) < (addSite a g site).objectInfo.length := by
  have heq : g.objectInfo.length = sitesLength g := h.length_eq
  rw [addSite_info_length]
  by_cases hmem : objIdentifier site.1 site.2 a.size a.tag ∈ g.objectLiveCycle.elems
  · rw [sitesLength_addSite_of_mem hmem]
    omega
  · have hname : '#' ∈ site.1 := by
      by_contra hname
      exact hfresh ⟨hmem, hname⟩
    have hlt := shortIdentifier_objIdentifier_of_mem hname site.2 a.size a.tag
    rw [sitesLength_addSite_of_notMem hmem]
    omega

/-- A fresh site keeps the two in step. -/
theorem ListsSites.addSite {a : AllocArgs} {g : Globals} {site : List Char × Int}
    (h : ListsSites g) (hfresh : FreshSite a g site) : ListsSites (addSite a g site) := by
  obtain ⟨order, hperm, hinfo⟩ := h
  refine ⟨order ++ [objIdentifier site.1 site.2 a.size a.tag], ?_, ?_⟩
  · show List.Perm _ (g.objectLiveCycle.insert _).elems
    rw [ListSet.elems_insert_of_notMem hfresh.1]
    exact hperm.append_right _
  · show g.objectInfo ++ _ = _
    rw [hinfo, List.flatMap_append, List.flatMap_singleton, bracketed,
      shortIdentifier_objIdentifier_of_notMem hfresh.2]

/-- Whether a site is fresh does not depend on other sites. -/
theorem freshSite_addSite {a : AllocArgs} {g : Globals} {site other : List Char × Int}
    (hne : objIdentifier other.1 other.2 a.size a.tag ≠ objIdentifier site.1 site.2 a.size a.tag) :
    FreshSite a (addSite a g site) other ↔ FreshSite a g other := by
  show (_ ∉ (g.objectLiveCycle.insert _).elems ∧ _) ↔ (_ ∧ _)
  rw [ListSet.mem_insert, or_iff_left hne]

/-- Sites with different identifiers keep `object_info` right exactly when each of them
is fresh. -/
theorem ListsSites.foldl_addSite_iff {a : AllocArgs} {g : Globals} {sites : List (List Char × Int)}
    (h : ListsSites g)
    (hdistinct : sites.Pairwise fun site other =>
      objIdentifier other.1 other.2 a.size a.tag ≠ objIdentifier site.1 site.2 a.size a.tag) :
    ListsSites (sites.foldl (DroidPerf.addSite a) g) ↔ ∀ site ∈ sites, FreshSite a g site := by
  induction sites generalizing g with
  | nil => simpa using h
  | cons site sites ih =>
      obtain ⟨hhead, htail⟩ := List.pairwise_cons.mp hdistinct
      rw [List.foldl_cons, List.forall_mem_cons]
      by_cases hfresh : FreshSite a g site
      · rw [ih (h.addSite hfresh) htail]
        have hrest : (∀ other ∈ sites, FreshSite a (DroidPerf.addSite a g site) other) ↔
            ∀ other ∈ sites, FreshSite a g other :=
          forall₂_congr fun other hother => freshSite_addSite (hhead other hother)
        rw [hrest, and_iff_right hfresh]
      · -- a site that is not fresh leaves a surplus, and the sites behind it do not make up
        -- for it
        have hsurplus := foldl_addSite_surplus (a := a) sites (addSite_surplus_of_not_fresh h hfresh)
        constructor
        · intro hlists
          exact absurd hlists.length_eq (by omega)
        · intro hsites
          exact absurd hsites.1 hfresh

/-- The class names of one allocation differ from each other by the `.java` that each
site adds. -/
theorem java_isPrefix_allocSites {a : AllocArgs} {frames : List Frame} {name : List Char} :
    ∀ site ∈ allocSites a frames name, name ++ ".java".toList <+: site.1 := by
  induction frames generalizing name with
  | nil => simp [allocSites]
  | cons frame frames ih =>
      unfold allocSites
      split
      · exact ih
      · split
        · exact ih
        · split
          · intro site hsite
            rcases List.mem_cons.mp hsite with rfl | hsite
            · exact List.prefix_refl _
            · exact (List.prefix_append _ _).trans (ih site hsite)
          · exact ih

/-- Names that differ by `.java` have different identifiers. -/
theorem objIdentifier_ne {name other : List Char} (h : name ++ ".java".toList <+: other)
    (lineNumber lineNumber' : Int) (size tag : Nat) :
    objIdentifier other lineNumber' size tag ≠ objIdentifier name lineNumber size tag := by
  obtain ⟨tail, rfl⟩ := h
  intro heq
  simp [objIdentifier, objShortIdentifier] at heq

/-- The sites of one allocation have different identifiers. -/
theorem allocSites_distinct (a : AllocArgs) (frames : List Frame) (name : List Char) :
    (allocSites a frames name).Pairwise fun site other =>
      objIdentifier other.1 other.2 a.size a.tag ≠ objIdentifier site.1 site.2 a.size a.tag := by
  induction frames generalizing name with
  | nil => exact .nil
  | cons frame frames ih =>
      unfold allocSites
      split
      · exact ih name
      · split
        · exact ih name
        · split
          · refine .cons (fun other hother => ?_) (ih _)
            exact objIdentifier_ne (java_isPrefix_allocSites other hother) _ _ _ _
          · exact ih name

/-- The sites that an allocation records on a thread have different identifiers. -/
theorem recordedSites_distinct (w : AgentThread) (a : AllocArgs) :
    (recordedSites w a).Pairwise fun site other =>
      objIdentifier other.1 other.2 a.size a.tag ≠ objIdentifier site.1 site.2 a.size a.tag := by
  unfold recordedSites
  split
  · exact allocSites_distinct _ _ _
  · exact .nil

/-! ### Runs of allocations and frees

An allocation is judged by the sites that it records in the state before it, a free by the set. -/

/-- The callbacks that change the recorded sites. An allocation comes with the thread it
runs on, in whatever state that is; a free comes with the order in which it finds the
set. -/
inductive SitesEvent where
  | alloc (thread : AgentThread) (args : AllocArgs)
  | free (traversal : ListSet.Traversal (List Char)) (tag : Nat)

/-- The global variables after a callback. -/
def SitesEvent.step (env : AgentEnv) (g : Globals) : SitesEvent → Except Fault Globals
  | .alloc w args =>
    (runCallback env (.objectAlloc args) { w with user := { w.user with globals := g } }).map
      fun w => w.user.globals
  | .free traversal tag => objectFree traversal tag g

/-- `object_info` is right in every state of the run. An allocation whose line does not
fit the output buffer ends the process; a free has to return. -/
def AlwaysListsSites (env : AgentEnv) (g : Globals) : List SitesEvent → Prop
  | [] => ListsSites g ∧ StripsToClass g
  | .alloc w args :: events =>
    (ListsSites g ∧ StripsToClass g) ∧
      ∀ g', (SitesEvent.alloc w args).step env g = .ok g' → AlwaysListsSites env g' events
  | .free traversal tag :: events =>
    (ListsSites g ∧ StripsToClass g) ∧
      ∃ g', (SitesEvent.free traversal tag).step env g = .ok g' ∧ AlwaysListsSites env g' events

/-- Every allocation adds fresh sites only, and every free finds no site. -/
def SitesFresh (env : AgentEnv) (g : Globals) : List SitesEvent → Prop
  | [] => True
  | .alloc w args :: events =>
    ∀ g', (SitesEvent.alloc w args).step env g = .ok g' →
      (∀ site ∈ recordedSites w args, FreshSite args g site) ∧ SitesFresh env g' events
  | .free traversal tag :: events =>
    g.objectLiveCycle.elems = [] ∧
      ∀ g', (SitesEvent.free traversal tag).step env g = .ok g' → SitesFresh env g' events

/-- A run that always lists its sites does so at its start. -/
theorem AlwaysListsSites.head {env : AgentEnv} {g : Globals} {events : List SitesEvent}
    (h : AlwaysListsSites env g events) : ListsSites g := by
  cases events with
  | nil => exact h.1
  | cons event events => cases event <;> exact h.1.1

/-- What an allocation that returns does. -/
theorem alloc_step_eq {env : AgentEnv} {w : AgentThread} {args : AllocArgs} {g g' : Globals}
    (h : (SitesEvent.alloc w args).step env g = .ok g') :
    g' = (recordedSites w args).foldl (addSite args) (countAlloc args.size g) := by
  obtain ⟨w', hrun, rfl⟩ := map_eq_ok.mp h
  obtain ⟨w₁, hbody, hend⟩ := bind_eq_ok.mp hrun
  cases hend
  exact objectAlloc_globals hbody

/-- A free that finds a site does not leave `object_info` right. -/
theorem free_step_listsSites {env : AgentEnv} {traversal : ListSet.Traversal (List Char)} {tag : Nat}
    {g g' : Globals} (h : (SitesEvent.free traversal tag).step env g = .ok g')
    (hlists : ListsSites g') : g.objectLiveCycle.elems = [] := by
  have hinfo : g'.objectInfo = (traversal.list g.objectLiveCycle).flatMap shortIdentifier := by
    rw [objectFree_eq h]
  have hset : sitesLength g' = sitesLength g := by
    rw [objectFree_eq h]
    rfl
  have hperm := ((traversal.perm g.objectLiveCycle).map
    fun str => (shortIdentifier str).length).sum_nat
  have hlen := hlists.length_eq
  rw [hinfo, hset, List.length_flatMap, hperm, sitesLength_eq] at hlen
  exact List.length_eq_zero_iff.mp (by omega)

/-- A free that finds no site returns. -/
theorem free_step_empty {traversal : ListSet.Traversal (List Char)} {g : Globals}
    (h : g.objectLiveCycle.elems = []) (env : AgentEnv) (tag : Nat) :
    ∃ g', (SitesEvent.free traversal tag).step env g = .ok g' ∧ ListsSites g' := by
  have hnil : traversal.list g.objectLiveCycle = [] :=
    List.perm_nil.mp (h ▸ traversal.perm g.objectLiveCycle)
  refine ⟨{ countFree tag g with objectInfo := [] }, ?_, [], h ▸ .refl _, rfl⟩
  show (freeLoop tag (traversal.list g.objectLiveCycle) [] >>= fun _ => _) = _
  rw [hnil]
  rfl

/-- From a state that lists its sites on, a run always does exactly when every site it adds is
fresh and every free finds none. -/
theorem ListsSites.always_iff {env : AgentEnv} {g : Globals} {events : List SitesEvent}
    (h : ListsSites g) : AlwaysListsSites env g events ↔ SitesFresh env g events := by
  induction events generalizing g with
  | nil => exact ⟨fun _ => trivial, fun _ => ⟨h, h.strips⟩⟩
  | cons event events ih =>
      cases event with
      | alloc w args =>
          -- an allocation may end the process, and then no state follows
          have hstep : ∀ g', (SitesEvent.alloc w args).step env g = .ok g' →
              (ListsSites g' ↔ ∀ site ∈ recordedSites w args, FreshSite args g site) := by
            intro g' hg'
            rw [alloc_step_eq hg']
            exact ListsSites.foldl_addSite_iff (g := countAlloc args.size g) h
              (recordedSites_distinct w args)
          constructor
          · intro hall g' hg'
            obtain ⟨-, hall⟩ := hall
            have hlists := (hall g' hg').head
            exact ⟨(hstep g' hg').mp hlists, (ih hlists).mp (hall g' hg')⟩
          · intro hfresh
            refine ⟨⟨h, h.strips⟩, fun g' hg' => ?_⟩
            obtain ⟨hsites, hrest⟩ := hfresh g' hg'
            exact (ih ((hstep g' hg').mpr hsites)).mpr hrest
      | free traversal tag =>
          -- a free returns exactly when it finds no site
          constructor
          · intro hall
            obtain ⟨-, g', hg', hall⟩ := hall
            refine ⟨free_step_listsSites hg' hall.head, fun g'' hg'' => ?_⟩
            cases hg'.symm.trans hg''
            exact (ih hall.head).mp hall
          · intro hfresh
            obtain ⟨hempty, hrest⟩ := hfresh
            obtain ⟨g', hg', hlists⟩ := free_step_empty hempty env tag
            exact ⟨⟨h, h.strips⟩, g', hg', (ih hlists).mpr (hrest g' hg')⟩

/-- **The list of sites.** Over every run of allocations and frees, `object_info` is the
bracketed list of the recorded sites, and so can be stripped from a class name, exactly when
every free finds no site and every recorded site is new and has no `#` in its name. -/
theorem alwaysListsSites_iff (env : AgentEnv) (events : List SitesEvent) :
    AlwaysListsSites env .start events ↔ SitesFresh env .start events :=
  ListsSites.always_iff ⟨[], .refl _, rfl⟩

/-- An object of 32 bytes of the class `a.B`, allocated in line 5. -/
def allocB : AllocArgs :=
  ⟨1, 32, 3, "La/B;".toList, 0, some [⟨16, 0, "f".toList, "La/B;".toList, some ⟨⟨0, 5⟩, []⟩⟩]⟩

/-- When another object is freed, the recorded site loses its brackets. -/
theorem free_loses_brackets :
    ¬ AlwaysListsSites ⟨genericEnv, []⟩ .start
      [.alloc startedThread allocB, .free .inOrder 9] := by
  intro hall
  obtain ⟨g', hstep, hsite⟩ : ∃ g', (SitesEvent.alloc startedThread allocB).step
      ⟨genericEnv, []⟩ .start = .ok g' ∧ g'.objectLiveCycle.elems ≠ [] := ⟨_, rfl, by decide⟩
  obtain ⟨-, g'', hfree, hlast⟩ := hall.2 g' hstep
  exact hsite (free_step_listsSites hfree hlast.1)

end DroidPerf
