import DroidPerf.ObjectsSound

/-!
# DroidPerf.AllocSitesSound

One allocation, and one free.

`ObjectAllocCallback` is meant to record the line of the allocation. It records a site for
every frame whose line it resolves, each time with a longer class name, until the filter
rejects that name (`recordsOneSite_iff`). `ObjectFreeCallback` is meant to remove the sites of
the freed object. It steps from an erased element and reads tags as `int`, so that it returns
only when it removes nothing and every tag is small (`freesTag_iff`).

For the allocation, the frames are reduced to the lines they resolve to (`allocSites_eq`), and
how many sites these lines give is seen from the first two of them. That two sites differ from
one in the text `object_info` follows from the number of closing brackets in it. For the free,
the set is known from the callbacks before (`mem_runSites`), and the loop returns exactly if it
can step over every element (`freeLoop_returns_iff`).
-/

namespace DroidPerf

open Text

/-! ### One allocation

A frame resolves to a line unless it is one of `Class.getName` or has no line table. The class
name is declared outside of the loop and grows in it, so the first line gets another name than
the second. -/

/-- The lines that the loop over the frames resolves. -/
def resolvedLines (a : AllocArgs) (frames : List Frame) : List Int :=
  frames.filterMap fun frame =>
    if frame.method = a.midGetName then none
    else frame.lineTable.map fun t => t.line frame.location

/-- A frame resolves to one line or to none. -/
theorem resolvedLines_cons (a : AllocArgs) (frame : Frame) (frames : List Frame) :
    resolvedLines a (frame :: frames) =
      (if frame.method = a.midGetName then none
        else frame.lineTable.map fun t => t.line frame.location).toList ++
        resolvedLines a frames := by
  unfold resolvedLines
  rw [List.filterMap_cons]
  split
  · rename_i hnone
    rw [hnone]
    rfl
  · rename_i line hline
    rw [hline]
    rfl

/-- The sites recorded for resolved lines. -/
def lineSites (size : Nat) : List Int → List Char → List (List Char × Int)
  | [], _ => []
  | line :: lines, name =>
    if isRecorded name size then
      (name ++ ".java".toList, line) :: lineSites size lines (name ++ ".java".toList)
    else lineSites size lines name

/-- What is recorded depends on the frames only through the resolved lines. -/
theorem allocSites_eq (a : AllocArgs) (frames : List Frame) (name : List Char) :
    allocSites a frames name = lineSites a.size (resolvedLines a frames) name := by
  induction frames generalizing name with
  | nil => rfl
  | cons frame frames ih =>
      rw [resolvedLines_cons]
      unfold allocSites
      split
      · exact ih name
      · cases hline : frame.lineTable with
        | none => exact ih name
        | some t =>
            show _ = lineSites a.size (t.line frame.location :: resolvedLines a frames) name
            rw [lineSites]
            simp only [ih]

/-- A name that the filter rejects stays as it is, and no line is recorded. -/
theorem lineSites_of_not_recorded {size : Nat} {name : List Char} (h : ¬ isRecorded name size)
    (lines : List Int) : lineSites size lines name = [] := by
  induction lines with
  | nil => rfl
  | cons line lines ih =>
      rw [lineSites, if_neg h, ih]

/-- A name that passes the filter is recorded with `.java`, which is part of it from then on. -/
theorem lineSites_of_recorded {size : Nat} {name : List Char} (h : isRecorded name size)
    (line : Int) (lines : List Int) :
    lineSites size (line :: lines) name =
      (name ++ ".java".toList, line) :: lineSites size lines (name ++ ".java".toList) := by
  rw [lineSites, if_pos h]

/-- More than one site is recorded when there are two lines and the name passes the filter
twice. -/
theorem length_lineSites_le_one_iff (size : Nat) (lines : List Int) (name : List Char) :
    (lineSites size lines name).length ≤ 1 ↔
      lines.length ≤ 1 ∨ ¬ isRecorded name size ∨ ¬ isRecorded (name ++ ".java".toList) size := by
  by_cases hname : isRecorded name size
  · cases lines with
    | nil => simp [lineSites]
    | cons line lines =>
        rw [lineSites_of_recorded hname, List.length_cons]
        -- the first line is recorded; whether the second is depends on the longer name
        by_cases hjava : isRecorded (name ++ ".java".toList) size
        · rw [or_iff_left (by simp only [hname, hjava, not_true, or_false, not_false_eq_true])]
          cases lines with
          | nil => simp [lineSites]
          | cons next lines =>
              rw [lineSites_of_recorded hjava]
              simp
        · rw [lineSites_of_not_recorded hjava]
          exact ⟨fun _ => .inr (.inr hjava), fun _ => Nat.le_refl 1⟩
  · rw [lineSites_of_not_recorded hname]
    exact ⟨fun _ => .inr (.inl hname), fun _ => Nat.zero_le 1⟩

/-- The first recorded site has one `.java` and the line of a resolved frame. -/
theorem lineSites_of_length_le_one {size : Nat} {lines : List Int} {name : List Char}
    (h : (lineSites size lines name).length ≤ 1) :
    lineSites size lines name = [] ∨
      ∃ line ∈ lines, lineSites size lines name = [(name ++ ".java".toList, line)] := by
  by_cases hname : isRecorded name size
  · cases lines with
    | nil => exact .inl rfl
    | cons line lines =>
        rw [lineSites_of_recorded hname] at h ⊢
        have hnil : lineSites size lines (name ++ ".java".toList) = [] :=
          List.length_eq_zero_iff.mp (Nat.le_zero.mp (Nat.le_of_succ_le_succ h))
        exact .inr ⟨line, List.mem_cons_self, by rw [hnil]⟩
  · exact .inl (lineSites_of_not_recorded hname lines)

/-- The first site has the class name with one `.java`. -/
theorem lineSites_head {size : Nat} {lines : List Int} {name : List Char} {site : List Char × Int}
    {sites : List (List Char × Int)} (h : lineSites size lines name = site :: sites) :
    site.1 = name ++ ".java".toList := by
  by_cases hname : isRecorded name size
  · cases lines with
    | nil => cases h
    | cons line lines =>
        rw [lineSites_of_recorded hname] at h
        rw [← (List.cons.inj h).1]
  · rw [lineSites_of_not_recorded hname] at h
    cases h

/-- The frames that the callback goes through on a thread. -/
def tracedFrames (w : AgentThread) (a : AllocArgs) : List Frame :=
  match w.tls.current.contextState, w.tls.current.outputStateAlloc, a.stackTrace with
  | some _, some _, some frames => frames.reverse
  | _, _, _ => []

/-- The sites of an allocation, from the lines of the frames that the callback goes through. -/
theorem recordedSites_eq_lineSites (w : AgentThread) (a : AllocArgs) :
    recordedSites w a =
      lineSites a.size (resolvedLines a (tracedFrames w a)) (className a.classSignature) := by
  unfold recordedSites tracedFrames
  cases w.tls.current.contextState with
  | none => rfl
  | some context =>
      cases w.tls.current.outputStateAlloc with
      | none => rfl
      | some o =>
          cases a.stackTrace with
          | none => rfl
          | some frames => exact allocSites_eq _ _ _

/-- The callback leaves the sites as they are, or adds one: the class name with `.java`,
and the line of a resolved frame. -/
def RecordsOneSite (a : AllocArgs) (w w' : AgentThread) : Prop :=
  (w'.user.globals.objectLiveCycle = w.user.globals.objectLiveCycle ∧
      w'.user.globals.objectInfo = w.user.globals.objectInfo) ∨
    ∃ line ∈ resolvedLines a (tracedFrames w a),
      let name := className a.classSignature ++ ".java".toList
      w'.user.globals.objectLiveCycle =
          w.user.globals.objectLiveCycle.insert (objIdentifier name line a.size a.tag) ∧
        w'.user.globals.objectInfo =
          w.user.globals.objectInfo ++ '[' :: (objShortIdentifier name line a.size ++ [']'])

/-- At most one frame is resolved, or the filter rejects the class name, or it rejects it
with `.java`. -/
def SingleSite (w : AgentThread) (a : AllocArgs) : Prop :=
  (resolvedLines a (tracedFrames w a)).length ≤ 1 ∨
    ¬ isRecorded (className a.classSignature) a.size ∨
    ¬ isRecorded (className a.classSignature ++ ".java".toList) a.size

instance (w : AgentThread) (a : AllocArgs) : Decidable (SingleSite w a) :=
  inferInstanceAs (Decidable (_ ∨ _ ∨ _))

/-! Every site adds a bracket to `object_info`, and the lines add none, so that two sites
cannot look like one. -/

/-- A number has no bracket. -/
theorem count_bracket_decimal (i : Int) : (decimal i).count ']' = 0 :=
  List.count_eq_zero.mpr ((numeric_decimal i).notMem (by decide) (by decide))

/-- An identifier has the brackets of its class name. -/
theorem count_bracket_objShortIdentifier (name : List Char) (line : Int) (size : Nat) :
    (objShortIdentifier name line size).count ']' = name.count ']' := by
  unfold objShortIdentifier
  simp only [List.count_append, count_bracket_decimal]
  rfl

/-- A site adds the brackets of its name and one more. -/
theorem count_bracket_addSite (a : AllocArgs) (g : Globals) (site : List Char × Int) :
    (addSite a g site).objectInfo.count ']' =
      g.objectInfo.count ']' + (site.1.count ']' + 1) := by
  show (g.objectInfo ++ '[' :: (objShortIdentifier site.1 site.2 a.size ++ [']'])).count ']' = _
  rw [List.count_append, List.count_cons_of_ne (by decide), List.count_append,
    count_bracket_objShortIdentifier]
  rfl

/-- Each of several sites adds its own brackets to the count. -/
theorem count_bracket_foldl_addSite (a : AllocArgs) (sites : List (List Char × Int)) (g : Globals) :
    (sites.foldl (addSite a) g).objectInfo.count ']' =
      g.objectInfo.count ']' + (sites.map fun site => site.1.count ']' + 1).sum := by
  induction sites generalizing g with
  | nil => rfl
  | cons site sites ih =>
      rw [List.foldl_cons, ih, count_bracket_addSite, List.map_cons, List.sum_cons]
      omega

/-- The global variables after `ObjectAllocCallback`. -/
theorem runCallback_objectAlloc_globals {env : AgentEnv} {a : AllocArgs} {w w' : AgentThread}
    (h : runCallback env (.objectAlloc a) w = .ok w') :
    w'.user.globals = (recordedSites w a).foldl (addSite a) (countAlloc a.size w.user.globals) := by
  have hstep : (SitesEvent.alloc w a).step env w.user.globals = .ok w'.user.globals := by
    show (runCallback env (.objectAlloc a) w).map _ = _
    rw [h]
    rfl
  exact alloc_step_eq hstep

/-- When more than one site is recorded, `object_info` has more brackets than one site
adds. -/
theorem RecordsOneSite.length_le_one {env : AgentEnv} {a : AllocArgs} {w w' : AgentThread}
    (h : RecordsOneSite a w w') (hrun : runCallback env (.objectAlloc a) w = .ok w') :
    (recordedSites w a).length ≤ 1 := by
  have hcount := count_bracket_foldl_addSite a (recordedSites w a)
    (countAlloc a.size w.user.globals)
  rw [← runCallback_objectAlloc_globals hrun] at hcount
  have hinfo : w'.user.globals.objectInfo.count ']' ≤ w.user.globals.objectInfo.count ']' +
      ((className a.classSignature ++ ".java".toList).count ']' + 1) := by
    rcases h with ⟨-, hinfo⟩ | ⟨line, -, -, hinfo⟩
    · rw [hinfo]
      exact Nat.le_add_right _ _
    · rw [hinfo]
      exact (count_bracket_addSite a w.user.globals (_, line)).le
  have hhead := recordedSites_eq_lineSites w a
  -- two sites have the first name twice, and so two brackets of their own
  rcases hsites : recordedSites w a with _ | ⟨site, _ | ⟨next, sites⟩⟩
  · exact Nat.zero_le 1
  · exact Nat.le_refl 1
  · rw [hsites] at hhead hcount
    have hname := lineSites_head hhead.symm
    simp only [List.map_cons, List.sum_cons, hname] at hcount
    have hglobals : (countAlloc a.size w.user.globals).objectInfo = w.user.globals.objectInfo := rfl
    rw [hglobals] at hcount
    omega

/-- **One site for an allocation.** The callback adds at most one site, for one line, exactly
when at most one frame is resolved or the filter rejects the class name, as it is or with
`.java`. -/
theorem recordsOneSite_iff (env : AgentEnv) (a : AllocArgs) (w w' : AgentThread)
    (h : runCallback env (.objectAlloc a) w = .ok w') :
    RecordsOneSite a w w' ↔ SingleSite w a := by
  unfold SingleSite
  rw [← length_lineSites_le_one_iff, ← recordedSites_eq_lineSites]
  constructor
  · intro hone
    exact hone.length_le_one h
  · intro hlen
    have hglobals := runCallback_objectAlloc_globals h
    rw [recordedSites_eq_lineSites] at hlen hglobals
    rcases lineSites_of_length_le_one hlen with hnil | ⟨line, hline, hsite⟩
    · rw [hnil] at hglobals
      exact .inl ⟨by rw [hglobals]; rfl, by rw [hglobals]; rfl⟩
    · rw [hsite] at hglobals
      exact .inr ⟨line, hline, by rw [hglobals]; rfl, by rw [hglobals]; rfl⟩

/-- One frame, one site. -/
theorem recordsOneSite_allocB :
    ∃ w', runCallback ⟨genericEnv, []⟩ (.objectAlloc allocB) startedThread = .ok w' ∧
      RecordsOneSite allocB startedThread w' := by
  obtain ⟨w', hw'⟩ : ∃ w', runCallback ⟨genericEnv, []⟩ (.objectAlloc allocB) startedThread =
      .ok w' := ⟨_, rfl⟩
  exact ⟨w', hw', (recordsOneSite_iff _ _ _ _ hw').mpr (by decide)⟩

/-- The object of `allocB`, allocated in line 5 of a method that was called in line 9. -/
def allocCalled : AllocArgs :=
  ⟨1, 32, 3, "La/B;".toList, 0, some
    [⟨16, 0, "f".toList, "La/B;".toList, some ⟨⟨0, 5⟩, []⟩⟩,
      ⟨24, 0, "main".toList, "La/M;".toList, some ⟨⟨0, 9⟩, []⟩⟩]⟩

/-- Two frames, two sites: `a.B.java` in the caller's line and `a.B.java.java`. -/
theorem caller_is_recorded_too :
    ∃ w', runCallback ⟨genericEnv, []⟩ (.objectAlloc allocCalled) startedThread = .ok w' ∧
      ¬ RecordsOneSite allocCalled startedThread w' := by
  obtain ⟨w', hw'⟩ : ∃ w', runCallback ⟨genericEnv, []⟩ (.objectAlloc allocCalled) startedThread =
      .ok w' := ⟨_, rfl⟩
  refine ⟨w', hw', fun hone => ?_⟩
  exact absurd (hone.length_le_one hw') (by decide)

/-! ### One free

The set is a fold over all callbacks so far. A free returns only if it erases nothing, so that
the set grows as long as the callbacks return. -/

/-- A recorded site, with the object's size and tag. -/
structure SiteEntry where
  name : List Char
  line : Int
  size : Nat
  tag : Nat
  deriving DecidableEq, Repr

/-- The element of `object_live_cycle` for a site. -/
def SiteEntry.identifier (e : SiteEntry) : List Char := objIdentifier e.name e.line e.size e.tag

/-- The entries that a callback adds. -/
def SitesEvent.entries : SitesEvent → List SiteEntry
  | .alloc w args => (recordedSites w args).map fun site => ⟨site.1, site.2, args.size, args.tag⟩
  | .free _ _ => []

/-- The global variables after callbacks. -/
def runSites (env : AgentEnv) (events : List SitesEvent) (g : Globals) : Except Fault Globals :=
  events.foldlM (fun g event => event.step env g) g

/-- Sites are added to the set as identifiers. -/
theorem mem_foldl_addSite {a : AllocArgs} {sites : List (List Char × Int)} {g : Globals}
    {str : List Char} :
    str ∈ (sites.foldl (addSite a) g).objectLiveCycle.elems ↔
      str ∈ g.objectLiveCycle.elems ∨
        ∃ site ∈ sites, str = objIdentifier site.1 site.2 a.size a.tag := by
  induction sites generalizing g with
  | nil => simp
  | cons site sites ih =>
      have hadd : str ∈ (addSite a g site).objectLiveCycle.elems ↔
          str ∈ g.objectLiveCycle.elems ∨ str = objIdentifier site.1 site.2 a.size a.tag :=
        ListSet.mem_insert
      rw [List.foldl_cons, ih, hadd, or_assoc, List.exists_mem_cons_iff]

/-- A callback that returned has added its entries, and removed none. -/
theorem SitesEvent.mem_step {env : AgentEnv} {event : SitesEvent} {g g' : Globals}
    (h : event.step env g = .ok g') (str : List Char) :
    str ∈ g'.objectLiveCycle.elems ↔
      str ∈ g.objectLiveCycle.elems ∨ ∃ e ∈ event.entries, str = e.identifier := by
  cases event with
  | alloc w args =>
      rw [alloc_step_eq h, mem_foldl_addSite]
      simp [SitesEvent.entries, SiteEntry.identifier, countAlloc]
  | free traversal tag =>
      have hset : g'.objectLiveCycle = g.objectLiveCycle := by
        rw [objectFree_eq h]
        rfl
      rw [hset]
      simp [SitesEvent.entries]

/-- After callbacks that returned, the set holds what the allocations recorded. -/
theorem mem_runSites {env : AgentEnv} {events : List SitesEvent} {g g' : Globals}
    (h : runSites env events g = .ok g') (str : List Char) :
    str ∈ g'.objectLiveCycle.elems ↔
      str ∈ g.objectLiveCycle.elems ∨
        ∃ e ∈ events.flatMap SitesEvent.entries, str = e.identifier := by
  induction events generalizing g with
  | nil =>
      cases h
      simp
  | cons event events ih =>
      unfold runSites at h
      rw [List.foldlM_cons] at h
      obtain ⟨g₁, hstep, h⟩ := bind_eq_ok.mp h
      rw [ih h, SitesEvent.mem_step hstep, or_assoc, List.flatMap_cons]
      simp only [List.mem_append, or_and_right, exists_or]

/-- The free returns, with the lock released, and removes the sites of the freed tag and no
others. -/
def FreesTag (traversal : ListSet.Traversal (List Char)) (tag : Nat) (entries : List SiteEntry)
    (g : Globals) : Prop :=
  ∃ g', objectFree traversal tag g = .ok g' ∧
    ∀ str, str ∈ g'.objectLiveCycle.elems ↔ ∃ e ∈ entries, e.tag ≠ tag ∧ str = e.identifier

/-- The number read from an entry fits an `int` and is not the freed tag. -/
def ReadsOtherTag (tag : Nat) (str : List Char) : Prop :=
  ∃ n, stoi (tagInset str) = some n ∧ tag ≠ (n % 2 ^ 64).toNat

/-- The loop returns if each entry shows a number, and none the freed tag: where an entry is
erased, the next step starts from it. -/
theorem freeLoop_returns_iff (tag : Nat) (strs : List (List Char)) (info : List Char) :
    (∃ info', freeLoop tag strs info = .ok info') ↔ ∀ str ∈ strs, ReadsOtherTag tag str := by
  induction strs generalizing info with
  | nil => simp [freeLoop]
  | cons str strs ih =>
      rw [List.forall_mem_cons, freeLoop]
      unfold ReadsOtherTag at ih ⊢
      cases stoi (tagInset str) with
      | none => simp
      | some n =>
          have hread : (∃ m, some n = some m ∧ tag ≠ (m % 2 ^ 64).toNat) ↔
              tag ≠ (n % 2 ^ 64).toNat :=
            ⟨fun ⟨_, heq, hne⟩ => Option.some.inj heq ▸ hne, fun hne => ⟨n, rfl, hne⟩⟩
          rw [hread]
          dsimp only
          -- the entry of the freed tag is erased and the loop steps from it
          by_cases htag : tag = (n % 2 ^ 64).toNat
          · rw [if_pos htag]
            exact ⟨nofun, fun h => absurd htag h.1⟩
          · rw [if_neg htag, ih, and_iff_right htag]

/-- The order in which the set is run over makes no difference to whether the free returns. -/
theorem objectFree_returns_iff (traversal : ListSet.Traversal (List Char)) (tag : Nat)
    (g : Globals) :
    (∃ g', objectFree traversal tag g = .ok g') ↔
      ∀ str ∈ g.objectLiveCycle.elems, ReadsOtherTag tag str := by
  have hloop := freeLoop_returns_iff tag (traversal.list g.objectLiveCycle) []
  have hmem : ∀ str, str ∈ traversal.list g.objectLiveCycle ↔ str ∈ g.objectLiveCycle.elems :=
    fun str => (traversal.perm g.objectLiveCycle).mem_iff
  simp only [hmem] at hloop
  rw [← hloop]
  constructor
  · rintro ⟨g', h⟩
    obtain ⟨info, hinfo, -⟩ := bind_eq_ok.mp h
    exact ⟨info, hinfo⟩
  · rintro ⟨info, hinfo⟩
    exact ⟨{ countFree tag g with objectInfo := info }, bind_eq_ok.mpr ⟨info, hinfo, rfl⟩⟩

/-- The tag is what stands after the last `#`. -/
theorem SiteEntry.tag_eq {e e' : SiteEntry} (h : e.identifier = e'.identifier) :
    e.tag = e'.tag := by
  have hlast : ∀ e : SiteEntry, afterLast '#' e.identifier = decimal e.tag :=
    fun e => afterLast_append ((numeric_decimal e.tag).notMem (by decide) (by decide))
  have hdecimal : decimal e.tag = decimal e'.tag := by rw [← hlast, h, hlast]
  exact Int.ofNat.inj (decimal_injective hdecimal)

/-- A class name without `#` leaves the whole tag to read. -/
theorem SiteEntry.tagInset_identifier {e : SiteEntry} (h : '#' ∉ e.name) :
    tagInset e.identifier = decimal e.tag := by
  -- the only `#` is the one before the tag
  have hshort : '#' ∉ objShortIdentifier e.name e.line e.size := by
    rw [← shortIdentifier_objIdentifier_of_notMem h e.line e.size e.tag]
    exact fun hmem => by simpa using List.mem_takeWhile_imp hmem
  unfold tagInset SiteEntry.identifier objIdentifier
  rw [if_pos (by simp), List.dropWhile_append_of_pos]
  · simp
  · intro c hc
    simpa using fun hcc : c = '#' => hshort (hcc ▸ hc)

/-- `std::stoi` reads a number that fits an `int` and throws on a larger one. -/
theorem stoi_decimal (n : Nat) :
    stoi (decimal n) = if n < 2 ^ 31 then some (n : Int) else none := by
  have hdigit : ∀ c ∈ Nat.toDigits 10 n, c.isDigit = true :=
    fun c => Nat.isDigit_of_mem_toDigits (by decide) (by decide)
  have hspace := CText.dropWhile_isSpace_digits hdigit
  have hall : (Nat.toDigits 10 n).takeWhile Char.isDigit = Nat.toDigits 10 n :=
    List.takeWhile_eq_self_iff.mpr hdigit
  show stoi (Nat.toDigits 10 n) = _
  unfold stoi
  simp only [hspace]
  -- a sign in front would be a digit
  split
  · rename_i digits hsign
    exact absurd (hdigit '-' (hsign ▸ List.mem_cons_self)) (by decide)
  · rename_i digits hsign
    exact absurd (hdigit '+' (hsign ▸ List.mem_cons_self)) (by decide)
  · rw [hall, Nat.ofDigitChars_ten_toDigits, if_neg Nat.toDigits_ne_nil]
    simp only [Bool.false_eq_true, if_false]
    refine if_congr ?_ rfl rfl
    omega

/-- The entries on which a free does what it should: the tag is another one, and what is
read from the entry is a number other than the freed tag. -/
def SiteEntry.Passes (tag : Nat) (e : SiteEntry) : Prop :=
  e.tag ≠ tag ∧ ReadsOtherTag tag e.identifier

/-- Without `#` in the class name the number shown is the tag, which passes if it fits an
`int`. -/
theorem SiteEntry.passes_iff {e : SiteEntry} (h : '#' ∉ e.name) (tag : Nat) :
    e.Passes tag ↔ e.tag ≠ tag ∧ e.tag < 2 ^ 31 := by
  unfold SiteEntry.Passes ReadsOtherTag
  rw [SiteEntry.tagInset_identifier h, stoi_decimal]
  refine and_congr_right fun hne => ?_
  by_cases hlt : e.tag < 2 ^ 31
  · rw [if_pos hlt]
    refine ⟨fun _ => hlt, fun _ => ⟨_, rfl, fun heq => hne ?_⟩⟩
    omega
  · rw [if_neg hlt]
    exact ⟨nofun, fun h => absurd h hlt⟩

/-- **Freeing an object.** After any callbacks, a free removes the sites of the freed object
and returns exactly when there are none, and every entry shows a number that fits an `int` and
is not the freed tag. Without `#` in a class name that number is the tag. -/
theorem freesTag_iff (env : AgentEnv) (events : List SitesEvent) (g : Globals)
    (h : runSites env events .start = .ok g) (traversal : ListSet.Traversal (List Char))
    (tag : Nat) :
    (FreesTag traversal tag (events.flatMap SitesEvent.entries) g ↔
        ∀ e ∈ events.flatMap SitesEvent.entries, e.Passes tag) ∧
      ∀ e : SiteEntry, '#' ∉ e.name → (e.Passes tag ↔ e.tag ≠ tag ∧ e.tag < 2 ^ 31) := by
  refine ⟨?_, fun e hname => SiteEntry.passes_iff hname tag⟩
  have hset : ∀ str, str ∈ g.objectLiveCycle.elems ↔
      ∃ e ∈ events.flatMap SitesEvent.entries, str = e.identifier := by
    intro str
    rw [mem_runSites h]
    exact or_iff_right List.not_mem_nil
  constructor
  · rintro ⟨g', hfree, hmem⟩ e he
    -- a free that returns has erased nothing
    have hkept : g'.objectLiveCycle = g.objectLiveCycle := by
      rw [objectFree_eq hfree]
      rfl
    have hin : e.identifier ∈ g.objectLiveCycle.elems := (hset _).mpr ⟨e, he, rfl⟩
    obtain ⟨e', -, hne, heq⟩ := (hmem _).mp (hkept ▸ hin)
    refine ⟨SiteEntry.tag_eq heq ▸ hne, ?_⟩
    exact (objectFree_returns_iff traversal tag g).mp ⟨g', hfree⟩ _ hin
  · intro hpasses
    obtain ⟨g', hfree⟩ := (objectFree_returns_iff traversal tag g).mpr fun str hstr => by
      obtain ⟨e, he, rfl⟩ := (hset str).mp hstr
      exact (hpasses e he).2
    refine ⟨g', hfree, fun str => ?_⟩
    have hkept : g'.objectLiveCycle = g.objectLiveCycle := by
      rw [objectFree_eq hfree]
      rfl
    rw [hkept, hset]
    refine exists_congr fun e => and_congr_right fun he => ?_
    rw [and_iff_right (hpasses e he).1]

/-- The object of `allocB` has the tag 3, and another object is freed. -/
theorem freesTag_other :
    ∃ g, runSites ⟨genericEnv, []⟩ [.alloc startedThread allocB] .start = .ok g ∧
      FreesTag .inOrder 9 [⟨"a.B.java".toList, 5, 32, 3⟩] g := by
  obtain ⟨g, hg⟩ : ∃ g, runSites ⟨genericEnv, []⟩ [.alloc startedThread allocB] .start = .ok g :=
    ⟨_, rfl⟩
  obtain ⟨hiff, hpasses⟩ := freesTag_iff _ _ g hg .inOrder 9
  refine ⟨g, hg, hiff.mpr fun e he => ?_⟩
  cases List.mem_singleton.mp he
  exact (hpasses _ (by decide)).mpr (by decide)

/-- When the object itself is freed, the loop steps from the element that it erased. -/
theorem free_steps_from_erased :
    ∃ g, runSites ⟨genericEnv, []⟩ [.alloc startedThread allocB] .start = .ok g ∧
      objectFree .inOrder 3 g = .error .danglingIterator ∧
      ¬ FreesTag .inOrder 3 [⟨"a.B.java".toList, 5, 32, 3⟩] g := by
  obtain ⟨g, hg, hfree⟩ : ∃ g, runSites ⟨genericEnv, []⟩ [.alloc startedThread allocB] .start =
      .ok g ∧ objectFree .inOrder 3 g = .error .danglingIterator := ⟨_, rfl, rfl⟩
  refine ⟨g, hg, hfree, ?_⟩
  rintro ⟨g', hok, -⟩
  rw [hfree] at hok
  cases hok

end DroidPerf
