import DroidPerf.LineTables
import DroidPerf.CodeCacheSound

/-!
# DroidPerf.LineTablesSound

The lines that a method's tables give.

The bytecode table is a set of ranges built from a line table, and `MethodEntry` and
`ObjectAllocCallback` scan the same line table themselves. `bci2line_agrees` says that both
give the line of the last entry that starts at or before the location.

The address table shifts the lines by one entry: code between two entries of the map gets the
line of the second one (`mappedLine`), up to the first location that the bytecode table does
not know. That is `addr2line_mapped`.

Both tables are filled by a loop over a list whose ranges come in order, so that an insertion
never meets a range that is there already. The induction over the list carries this: all stored
ranges end before the next entry (`loadLines_spec`, `mapLoop_spec`).
-/

namespace DroidPerf

/-! ### Bytecode indexes

Entries may start at the same location. The earlier one is then left without a range, and the
later one decides, as in the scan. -/

/-- A location that is not negative is its own key. -/
theorem toUint64_of_nonneg {x : Int} (h : 0 ≤ x) (h' : x < 2 ^ 63) : toUint64 x = x.toNat := by
  rw [toUint64, Int.emod_eq_of_lt h (by omega)]

/-- What is assumed of the VM: start locations are `jlocation`s, not negative and in
order; some may be equal. -/
structure LinesOrdered (entries : List LineNumberEntry) : Prop where
  nonneg : ∀ e ∈ entries, 0 ≤ e.startLocation
  fits : ∀ e ∈ entries, e.startLocation < 2 ^ 63
  ordered : entries.Pairwise fun e e' => e.startLocation ≤ e'.startLocation

/-- The entries behind the first are ordered too. -/
theorem LinesOrdered.tail {e : LineNumberEntry} {es : List LineNumberEntry}
    (h : LinesOrdered (e :: es)) : LinesOrdered es :=
  ⟨fun x hx => h.nonneg x (List.mem_cons_of_mem _ hx),
    fun x hx => h.fits x (List.mem_cons_of_mem _ hx), h.ordered.of_cons⟩

/-- The scan ends at the last entry that starts at or before the location. -/
theorem scanLines_last {e : LineNumberEntry} {es : List LineNumberEntry}
    (hordered : (e :: es).Pairwise fun e e' => e.startLocation ≤ e'.startLocation)
    {location : Int} (hstart : e.startLocation ≤ location) :
    ∃ pre last post, e :: es = pre ++ last :: post ∧ last.startLocation ≤ location ∧
      (∀ x ∈ post, location < x.startLocation) ∧
      scanLines location e.lineNumber es = last.lineNumber := by
  induction es generalizing e with
  | nil => exact ⟨[], e, [], rfl, hstart, by simp, rfl⟩
  | cons next es ih =>
      unfold scanLines
      split
      · rename_i hlt
        refine ⟨[], e, next :: es, rfl, hstart, fun x hx => ?_, rfl⟩
        rcases List.mem_cons.mp hx with rfl | hx
        · exact hlt
        · have hle := (List.pairwise_cons.mp hordered.of_cons).1 x hx
          omega
      · rename_i hge
        obtain ⟨pre, last, post, hsplit, hlast, hpost, hline⟩ := ih hordered.of_cons (not_lt.mp hge)
        exact ⟨e :: pre, last, post, by rw [hsplit]; rfl, hlast, hpost, hline⟩

/-- One entry that reaches up to `tmpEnd`, before the rest of the loop. When it has no
location of its own it is left out, and up to `tmpEnd` there is then nothing to answer
for. -/
theorem loadEntry_spec {e : LineNumberEntry} {tmpEnd : Int} {rs : RangeSet Nat Int}
    (hnonneg : 0 ≤ e.startLocation) (hfits : e.startLocation < 2 ^ 63) (hend : tmpEnd < 2 ^ 63)
    (hd : rs.Disjoint) (hbefore : ∀ r ∈ rs.ranges, r.stop < e.startLocation.toNat)
    (continuation : RangeSet Nat Int → Except Fault (RangeSet Nat Int)) :
    ∃ rs', (if tmpEnd < e.startLocation then continuation rs
        else do
          let (_, rs) ← rs.insert (toUint64 e.startLocation) (toUint64 tmpEnd) e.lineNumber
          continuation rs) = continuation rs' ∧ rs'.Disjoint ∧
      (∀ r ∈ rs'.ranges, r.stop < e.startLocation.toNat ∨ (r.stop : Int) ≤ tmpEnd) ∧
      ∀ location, 0 ≤ location → location ≤ tmpEnd → rs'.getData location.toNat =
        if location < e.startLocation then rs.getData location.toNat else some e.lineNumber := by
  by_cases hskip : tmpEnd < e.startLocation
  · refine ⟨rs, if_pos hskip, hd, fun r hr => .inl (hbefore r hr), fun location _ hle => ?_⟩
    rw [if_pos (by omega)]
  · have hproper : e.startLocation.toNat ≤ tmpEnd.toNat := by omega
    obtain ⟨rs', hins, hd', hranges, hget⟩ :=
      RangeSet.insert_after hd hproper hbefore e.lineNumber
    refine ⟨rs', ?_, hd', fun r hr => ?_, fun location hloc hle => ?_⟩
    · rw [if_neg hskip, toUint64_of_nonneg hnonneg hfits, toUint64_of_nonneg (by omega) hend,
        hins, ok_bind]
    · rcases (hranges r).mp hr with hr | rfl
      · exact .inl (hbefore r hr)
      · exact .inr (by dsimp only; omega)
    · rw [hget]
      by_cases hlt : location < e.startLocation
      · rw [if_pos hlt, if_neg (by omega)]
      · rw [if_neg hlt, if_pos (by omega)]

/-- The loop over the entries, from a set whose ranges all end before the first of them:
up to the end of the method the new set answers with the scan. -/
theorem loadLines_spec {endLocation : Int} (hend : endLocation < 2 ^ 63)
    {e : LineNumberEntry} {es : List LineNumberEntry} (h : LinesOrdered (e :: es))
    {rs : RangeSet Nat Int} (hd : rs.Disjoint)
    (hbefore : ∀ r ∈ rs.ranges, r.stop < e.startLocation.toNat) :
    ∃ rs', loadLines endLocation (e :: es) rs = .ok rs' ∧
      ∀ location, 0 ≤ location → location ≤ endLocation → rs'.getData location.toNat =
        if location < e.startLocation then rs.getData location.toNat
        else some (scanLines location e.lineNumber es) := by
  -- by induction on the entries behind `e`, for any set whose ranges end before `e`
  have hnonneg := h.nonneg e List.mem_cons_self
  have hfits := h.fits e List.mem_cons_self
  induction es generalizing e rs with
  | nil =>
      obtain ⟨rs', hentry, -, -, hget⟩ :=
        loadEntry_spec hnonneg hfits hend hd hbefore (loadLines endLocation [])
      exact ⟨rs', hentry, hget⟩
  | cons next es ih =>
      have hle : e.startLocation ≤ next.startLocation :=
        (List.pairwise_cons.mp h.ordered).1 next List.mem_cons_self
      have hnonneg' := h.nonneg next (by simp)
      have hfits' := h.fits next (by simp)
      have hnext : next.startLocation - 1 < 2 ^ 63 := by omega
      obtain ⟨rs₁, hentry, hd₁, hstop₁, hget₁⟩ :=
        loadEntry_spec hnonneg hfits hnext hd hbefore (loadLines endLocation (next :: es))
      have hbefore₁ : ∀ r ∈ rs₁.ranges, r.stop < next.startLocation.toNat := by
        intro r hr
        have hstop := hstop₁ r hr
        omega
      -- the set has the range of `e` from here on, and it ends before the next entry
      obtain ⟨rs', hload, hget⟩ := ih h.tail hd₁ hbefore₁ hnonneg' hfits'
      refine ⟨rs', hentry.trans hload, fun location hloc hend' => ?_⟩
      rw [hget location hloc hend', scanLines]
      by_cases hlt : location < next.startLocation
      · rw [if_pos hlt, if_pos hlt, hget₁ location hloc (by omega)]
      · rw [if_neg hlt, if_neg hlt, if_neg (by omega)]

/-- **Bytecode indexes to lines.** For every line table with ordered starts and every end of
the method, the bytecode table of a method that is not native gives at every location from the
first start to that end the line that the scan gives, the line of the last entry that starts at
or before it. -/
theorem bci2line_agrees (t : LineTable) (endLocation : Int) (ht : LinesOrdered t.entries)
    (hend : endLocation < 2 ^ 63) :
    ∃ m, Method.new false (some endLocation) (some t.entries) = .ok m ∧
      ∀ location, t.first.startLocation ≤ location → location ≤ endLocation →
        m.bci2lineRangeset.getData (toUint64 location) = some (t.line location) ∧
        ∃ pre last post, t.entries = pre ++ last :: post ∧ last.startLocation ≤ location ∧
          (∀ x ∈ post, location < x.startLocation) ∧ t.line location = last.lineNumber := by
  have hempty : (.empty : RangeSet Nat Int).Disjoint := fun r hr => by cases hr
  obtain ⟨rs, hload, hget⟩ := loadLines_spec hend ht hempty fun r hr => by cases hr
  refine ⟨⟨false, rs⟩, ?_, fun location hstart hstop => ⟨?_, scanLines_last ht.ordered hstart⟩⟩
  · simp only [Method.new, Method.loadBCILineTable, LineTable.entries, hload, ok_bind]
    rfl
  · have hnonneg := ht.nonneg t.first List.mem_cons_self
    rw [toUint64_of_nonneg (by omega) (by omega), hget location (by omega) hstop,
      if_neg (by omega)]
    rfl

/-- Two entries start at 4; the second of them decides. -/
theorem bci2line_agrees_equal_starts :
    ∃ m, Method.new false (some 9) (some [⟨0, 10⟩, ⟨4, 11⟩, ⟨4, 12⟩]) = .ok m ∧
      m.bci2lineRangeset.getData (toUint64 4) = some 12 := by
  obtain ⟨m, hm, hagree⟩ := bci2line_agrees ⟨⟨0, 10⟩, [⟨4, 11⟩, ⟨4, 12⟩]⟩ 9
    ⟨by decide, by decide, by decide⟩ (by decide)
  exact ⟨m, hm, (hagree 4 (by decide) (by decide)).1⟩

/-! ### Addresses

What the loop stores is described without it: an address has the line of the first entry that
starts after it. -/

/-- The entries of an address map start behind the start of the code, each after the one
before, and none behind the end of the code. -/
structure MapOrdered (c : CompiledMethod) (map : List AddrLocation) : Prop where
  ordered : map.Pairwise fun e e' => e.startAddress < e'.startAddress
  inside : ∀ e ∈ map, c.startAddr < e.startAddress ∧ e.startAddress ≤ c.startAddr + c.codeSize

/-- The entries behind the first are ordered too. -/
theorem MapOrdered.tail {c : CompiledMethod} {e : AddrLocation} {es : List AddrLocation}
    (h : MapOrdered c (e :: es)) : MapOrdered c es :=
  ⟨h.ordered.of_cons, fun x hx => h.inside x (List.mem_cons_of_mem _ hx)⟩

/-- The first entry that starts after the address has this line, and the locations of the
entries before it are known. -/
def MappedTo (lineOf : AddrLocation → Option Int) (map : List AddrLocation) (addr : Nat)
    (line : Int) : Prop :=
  ∃ pre entry post, map = pre ++ entry :: post ∧
    (∀ x ∈ pre, x.startAddress ≤ addr ∧ lineOf x ≠ none) ∧ addr < entry.startAddress ∧
    lineOf entry = some line

/-- The line of that entry. -/
def mappedLine (lineOf : AddrLocation → Option Int) : List AddrLocation → Nat → Option Int
  | [], _ => none
  | entry :: entries, addr =>
    match lineOf entry with
    | none => none
    | some line => if addr < entry.startAddress then some line else mappedLine lineOf entries addr

/-- The scan for a line finds exactly the entries that `MappedTo` speaks of. -/
theorem mappedLine_eq_some {lineOf : AddrLocation → Option Int} {map : List AddrLocation}
    {addr : Nat} {line : Int} :
    mappedLine lineOf map addr = some line ↔ MappedTo lineOf map addr line := by
  induction map with
  | nil =>
      constructor
      · nofun
      · rintro ⟨pre, entry, post, hsplit, -⟩
        simp at hsplit
  | cons entry entries ih =>
      unfold mappedLine
      constructor
      · -- the entry that was found, with those before it
        intro h
        split at h
        · cases h
        · rename_i first hfirst
          split at h
          · rename_i hlt
            exact ⟨[], entry, entries, rfl, by simp, hlt, hfirst.trans h⟩
          · rename_i hge
            obtain ⟨pre, e, post, hsplit, hpre, hlt, hline⟩ := ih.mp h
            refine ⟨entry :: pre, e, post, by rw [hsplit]; rfl, ?_, hlt, hline⟩
            exact List.forall_mem_cons.mpr ⟨⟨not_lt.mp hge, by simp [hfirst]⟩, hpre⟩
      · -- the scan passes the entries of `pre`: they start too early, and their lines are
        -- known
        rintro ⟨pre, e, post, hsplit, hpre, hlt, hline⟩
        cases pre with
        | nil =>
            obtain ⟨rfl, rfl⟩ := List.cons.inj hsplit
            rw [hline]
            exact if_pos hlt
        | cons x pre =>
            obtain ⟨rfl, rfl⟩ := List.cons.inj hsplit
            obtain ⟨⟨hle, hknown⟩, hpre⟩ := List.forall_mem_cons.mp hpre
            obtain ⟨first, hfirst⟩ := Option.ne_none_iff_exists'.mp hknown
            rw [hfirst]
            exact (if_neg (not_lt.mpr hle)).trans (ih.mpr ⟨pre, e, post, rfl, hpre, hlt, hline⟩)

/-- One less does not wrap around. -/
theorem sub64_one {x : Nat} (h : 0 < x) (h' : x ≤ 2 ^ 64) : sub64 x 1 = x - 1 := by
  unfold sub64
  omega

namespace MappedMethod

variable {m : MappedMethod}

/-- The last address of the code does not wrap around. -/
theorem codeEnd_eq (hsize : 1 ≤ m.codeSize) (hfit : m.startAddr + m.codeSize ≤ 2 ^ 64) :
    m.codeEnd = m.startAddr + m.codeSize - 1 :=
  CodeCacheManager.endAddr_eq ⟨hsize, hfit⟩

/-- Inside the method `addr2line` does not fail, and it answers 0 where the table has no
line. -/
theorem addr2line_of_inside (hfit : m.startAddr + m.codeSize ≤ 2 ^ 64) {addr : Nat}
    (hstart : m.startAddr ≤ addr) (hstop : addr < m.startAddr + m.codeSize) :
    m.addr2line addr = .ok ((m.addr2lineRangeset.getData addr).getD 0) := by
  unfold addr2line
  split
  · rename_i hempty
    rw [RangeSet.getData_of_isEmpty hempty]
    rfl
  · split
    · rename_i line hline
      rw [hline]
      rfl
    · rename_i hnone
      have hinside : m.startAddr ≤ addr ∧ addr ≤ m.codeEnd := by
        rw [codeEnd_eq (by omega) hfit]
        omega
      rw [hnone, decide_eq_true hinside, assert_true, ok_bind]
      rfl

/-- What the loop from `entry` on makes of the set `rs`: disjoint ranges inside the method
that answer as before up to `entry`, and with `line` from there on. -/
structure Extended (m : MappedMethod) (entry : AddrLocation) (line : Nat → Option Int)
    (rs rs' : RangeSet Nat Int) : Prop where
  disjoint : rs'.Disjoint
  inside : ∀ r ∈ rs'.ranges, m.startAddr ≤ r.start ∧ r.stop < m.startAddr + m.codeSize
  getData : ∀ addr, rs'.getData addr =
    if addr < entry.startAddress then rs.getData addr else line addr

section Loop

variable {entry next : AddrLocation} {rest : List AddrLocation} {rs : RangeSet Nat Int}

/-- Where the loop stops, the set stays as it is. -/
theorem extended_refl (hmap : MapOrdered m.toCompiledMethod (entry :: rest)) (hd : rs.Disjoint)
    (hbefore : ∀ r ∈ rs.ranges, m.startAddr ≤ r.start ∧ r.stop < entry.startAddress) :
    Extended m entry (fun _ => none) rs rs := by
  obtain ⟨-, hstop⟩ := hmap.inside entry List.mem_cons_self
  refine ⟨hd, fun r hr => ⟨(hbefore r hr).1, (hbefore r hr).2.trans_le hstop⟩, fun addr => ?_⟩
  split
  · rfl
  · rename_i hge
    exact RangeSet.getData_eq_none fun r hr => (hbefore r hr).2.trans_le (not_lt.mp hge)

/-- Both assertions of the loop hold. -/
theorem mapLoop_cons (hfit : m.startAddr + m.codeSize ≤ 2 ^ 64)
    (hmap : MapOrdered m.toCompiledMethod (entry :: next :: rest)) (rs : RangeSet Nat Int) :
    entry.startAddress ≤ next.startAddress - 1 ∧ m.mapLoop entry (next :: rest) rs =
      (m.lineOf next).elim (.ok rs) fun lineno =>
        rs.insert entry.startAddress (next.startAddress - 1) lineno >>= fun q =>
          m.mapLoop next rest q.2 := by
  have hlt : entry.startAddress < next.startAddress :=
    (List.pairwise_cons.mp hmap.ordered).1 next List.mem_cons_self
  obtain ⟨hstart, -⟩ := hmap.inside entry List.mem_cons_self
  obtain ⟨-, hstop⟩ := hmap.inside next (by simp)
  have hproper : entry.startAddress ≤ next.startAddress - 1 := by omega
  have hcode : next.startAddress - 1 ≤ m.codeEnd := by
    rw [codeEnd_eq (by omega) hfit]
    omega
  refine ⟨hproper, ?_⟩
  rw [mapLoop, sub64_one (by omega) (by omega)]
  simp only [decide_eq_true hproper, decide_eq_true hcode, assert_true, ok_bind]
  cases m.lineOf next <;> rfl

/-- From its first entry on, the loop gives the code up to each entry the line of that
entry. -/
theorem mapLoop_spec (hfit : m.startAddr + m.codeSize ≤ 2 ^ 64)
    (hmap : MapOrdered m.toCompiledMethod (entry :: rest)) (hd : rs.Disjoint)
    (hbefore : ∀ r ∈ rs.ranges, m.startAddr ≤ r.start ∧ r.stop < entry.startAddress) :
    ∃ rs', m.mapLoop entry rest rs = .ok rs' ∧
      Extended m entry (mappedLine m.lineOf rest) rs rs' := by
  induction rest generalizing entry rs with
  | nil => exact ⟨rs, rfl, extended_refl hmap hd hbefore⟩
  | cons next rest ih =>
      obtain ⟨hproper, hloop⟩ := mapLoop_cons hfit hmap rs
      rw [hloop]
      cases hline : m.lineOf next with
      | none =>
          -- an unknown location ends the loop, and the code behind it has no line
          have hnone : mappedLine m.lineOf (next :: rest) = fun _ => none := by
            funext addr
            rw [mappedLine, hline]
          rw [hnone]
          exact ⟨rs, rfl, extended_refl hmap hd hbefore⟩
      | some lineno =>
          obtain ⟨rs₁, hins, hd₁, hranges, hget₁⟩ :=
            RangeSet.insert_after hd hproper (fun r hr => (hbefore r hr).2) lineno
          -- the invariant for the entries behind `next`
          have hbefore₁ : ∀ r ∈ rs₁.ranges,
              m.startAddr ≤ r.start ∧ r.stop < next.startAddress := by
            intro r hr
            rcases (hranges r).mp hr with hr | rfl
            · have hr := hbefore r hr
              omega
            · have hstart := (hmap.inside entry List.mem_cons_self).1
              dsimp only
              omega
          obtain ⟨rs', hrest, hext⟩ := ih hmap.tail hd₁ hbefore₁
          refine ⟨rs', ?_, hext.disjoint, hext.inside, fun addr => ?_⟩
          · rw [Option.elim_some, hins, ok_bind]
            exact hrest
          · rw [hext.getData, hget₁, mappedLine, hline]
            by_cases hnext : addr < next.startAddress
            · by_cases hentry : addr < entry.startAddress
              · rw [if_pos hnext, if_pos hentry, if_neg (by omega)]
              · rw [if_pos hnext, if_neg hentry, if_pos (by omega)]
                exact (if_pos hnext).symm
            · rw [if_neg hnext, if_neg (by omega)]
              exact (if_neg hnext).symm

end Loop

/-- Without a location that the bytecode table knows, nothing is stored. -/
theorem loadAddrLocationMap_unknown (m : MappedMethod) {map : List AddrLocation}
    (hunknown : ∀ first, map.head? = some first → m.lineOf first = none ∧
      m.startAddr ≤ sub64 first.startAddress 1) :
    m.loadAddrLocationMap map = .ok m := by
  unfold loadAddrLocationMap
  split
  · rfl
  · cases map with
    | nil => rfl
    | cons first rest =>
        obtain ⟨hline, hle⟩ := hunknown first rfl
        dsimp only
        split
        · rfl
        · rw [decide_eq_true hle, assert_true, ok_bind, hline]
          rfl

/-- With such a location, the code before the first entry gets the line of that entry, and
the loop does the rest. -/
theorem loadAddrLocationMap_known {first : AddrLocation} {rest : List AddrLocation}
    {rs₁ rs : RangeSet Nat Int} {lineno : Int} (hnative : m.isNative = false)
    (hle : m.startAddr ≤ sub64 first.startAddress 1) (hline : m.lineOf first = some lineno)
    (hins : m.addr2lineRangeset.insert m.startAddr (sub64 first.startAddress 1) lineno =
      .ok (true, rs₁)) (hloop : m.mapLoop first rest rs₁ = .ok rs) :
    m.loadAddrLocationMap (first :: rest) = .ok { m with addr2lineRangeset := rs } := by
  have hbci : ¬ m.bci2lineRangeset.isEmpty = true := by
    intro hbci
    rw [lineOf, RangeSet.getData_of_isEmpty hbci] at hline
    cases hline
  unfold loadAddrLocationMap
  rw [hnative, if_neg (by decide)]
  dsimp only
  rw [if_neg hbci, decide_eq_true hle, assert_true, ok_bind, hline]
  dsimp only
  rw [hins, ok_bind]
  dsimp only
  rw [hloop]
  rfl

/-- `loadAddrLocationMap` on a new method fills its table with disjoint ranges inside the
method that give the lines of the map. -/
theorem loadAddrLocationMap_spec (base : Method) (c : CompiledMethod) {map : List AddrLocation}
    (hnative : base.isNative = false) (hmap : MapOrdered c map)
    (hfit : c.startAddr + c.codeSize ≤ 2 ^ 64) :
    ∃ rs, (new base c).loadAddrLocationMap map =
        .ok { new base c with addr2lineRangeset := rs } ∧ rs.Disjoint ∧
      (∀ r ∈ rs.ranges, c.startAddr ≤ r.start ∧ r.stop < c.startAddr + c.codeSize) ∧
      ∀ addr, c.startAddr ≤ addr → rs.getData addr = mappedLine (new base c).lineOf map addr := by
  have hempty : (.empty : RangeSet Nat Int).Disjoint := fun r hr => by cases hr
  have hnone : ∀ r ∈ (.empty : RangeSet Nat Int).ranges,
      c.startAddr ≤ r.start ∧ r.stop < c.startAddr + c.codeSize := fun r hr => by cases hr
  cases map with
  | nil =>
      exact ⟨.empty, loadAddrLocationMap_unknown _ nofun, hempty, hnone,
        fun addr _ => RangeSet.getData_of_isEmpty rfl addr⟩
  | cons first rest =>
      obtain ⟨hstart, hstop⟩ := hmap.inside first List.mem_cons_self
      have hproper : c.startAddr ≤ first.startAddress - 1 := by omega
      have hend : sub64 first.startAddress 1 = first.startAddress - 1 :=
        sub64_one (by omega) (by omega)
      cases hline : (new base c).lineOf first with
      | none =>
          have hunknown : ∀ e, (first :: rest).head? = some e →
              (new base c).lineOf e = none ∧ c.startAddr ≤ sub64 e.startAddress 1 := by
            intro e he
            cases he
            exact ⟨hline, hend ▸ hproper⟩
          refine ⟨.empty, loadAddrLocationMap_unknown _ hunknown, hempty, hnone, fun addr _ => ?_⟩
          rw [RangeSet.getData_of_isEmpty rfl, mappedLine, hline]
      | some lineno =>
          obtain ⟨rs₁, hins, hd₁, hranges, hget₁⟩ := RangeSet.insert_after hempty hproper
            (fun r hr => by cases hr) lineno
          have hbefore₁ : ∀ r ∈ rs₁.ranges,
              c.startAddr ≤ r.start ∧ r.stop < first.startAddress := by
            intro r hr
            rcases (hranges r).mp hr with hr | rfl
            · cases hr
            · exact ⟨le_refl _, by dsimp only; omega⟩
          obtain ⟨rs, hloop, hext⟩ :=
            mapLoop_spec (m := new base c) hfit hmap hd₁ hbefore₁
          refine ⟨rs, ?_, hext.disjoint, hext.inside, fun addr haddr => ?_⟩
          · rw [← hend] at hproper hins
            exact loadAddrLocationMap_known hnative hproper hline hins hloop
          · rw [hext.getData, hget₁, mappedLine, hline]
            by_cases hlt : addr < first.startAddress
            · rw [if_pos hlt, if_pos (by omega)]
              exact (if_pos hlt).symm
            · rw [if_neg hlt]
              exact (if_neg hlt).symm

end MappedMethod

/-- **Addresses to lines.** For every method that is not native and every ordered address map,
`loadAddrLocationMap` returns; the stored ranges are disjoint and inside the method; an address
below an entry, with all locations up to that entry known, has the line of that entry's
location, and at every other address of the method `addr2line` returns 0. -/
theorem addr2line_mapped (base : Method) (c : CompiledMethod) (map : List AddrLocation)
    (hnative : base.isNative = false) (hmap : MapOrdered c map)
    (hfit : c.startAddr + c.codeSize ≤ 2 ^ 64) :
    ∃ m, (MappedMethod.new base c).loadAddrLocationMap map = .ok m ∧
      m.addr2lineRangeset.Disjoint ∧
      (∀ r ∈ m.addr2lineRangeset.ranges,
        c.startAddr ≤ r.start ∧ r.stop < c.startAddr + c.codeSize) ∧
      (∀ addr line, c.startAddr ≤ addr →
        MappedTo (MappedMethod.new base c).lineOf map addr line → m.addr2line addr = .ok line) ∧
      ∀ addr, c.startAddr ≤ addr → addr < c.startAddr + c.codeSize →
        (∀ line, ¬ MappedTo (MappedMethod.new base c).lineOf map addr line) →
        m.addr2line addr = .ok 0 := by
  obtain ⟨rs, hload, hd, hinside, hget⟩ :=
    MappedMethod.loadAddrLocationMap_spec base c hnative hmap hfit
  refine ⟨_, hload, hd, hinside, fun addr line hstart hto => ?_, fun addr hstart hstop hno => ?_⟩
  · have hline := mappedLine_eq_some.mpr hto
    have hstop : addr < c.startAddr + c.codeSize := by
      obtain ⟨pre, entry, post, rfl, -, hlt, -⟩ := hto
      have hentry := (hmap.inside entry (by simp)).2
      omega
    rw [MappedMethod.addr2line_of_inside hfit hstart hstop]
    show Except.ok ((rs.getData addr).getD 0) = _
    rw [hget addr hstart, hline]
    rfl
  · have hnone : mappedLine (MappedMethod.new base c).lineOf map addr = none := by
      refine Option.eq_none_iff_forall_ne_some.mpr fun line hline => ?_
      exact hno line (mappedLine_eq_some.mp hline)
    rw [MappedMethod.addr2line_of_inside hfit hstart hstop]
    show Except.ok ((rs.getData addr).getD 0) = _
    rw [hget addr hstart, hnone]
    rfl

/-- A bytecode table with two lines. -/
def twoLines : Method :=
  ⟨false, ⟨⟨[(0, ⟨0, 3, 10⟩), (4, ⟨4, 9, 11⟩)], by decide⟩, by decide⟩⟩

/-- A map whose last location has no line: the code before its first and its second entry
has one, the rest has none. -/
theorem addr2line_mapped_shifted :
    ∃ m, (MappedMethod.new twoLines ⟨7, 1, 20, 100⟩).loadAddrLocationMap
        [⟨104, 0⟩, ⟨110, 5⟩, ⟨118, 50⟩] = .ok m ∧
      m.addr2line 100 = .ok 10 ∧ m.addr2line 109 = .ok 11 ∧ m.addr2line 110 = .ok 0 := by
  obtain ⟨m, hload, -, -, hline, hother⟩ := addr2line_mapped twoLines ⟨7, 1, 20, 100⟩
    [⟨104, 0⟩, ⟨110, 5⟩, ⟨118, 50⟩] rfl ⟨by decide, by decide⟩ (by decide)
  refine ⟨m, hload, hline 100 10 (by decide) ?_, hline 109 11 (by decide) ?_,
    hother 110 (by decide) (by decide) fun line => ?_⟩
  · exact mappedLine_eq_some.mp (by decide)
  · exact mappedLine_eq_some.mp (by decide)
  · rw [← mappedLine_eq_some]
    have hnone : mappedLine (MappedMethod.new twoLines ⟨7, 1, 20, 100⟩).lineOf
        [⟨104, 0⟩, ⟨110, 5⟩, ⟨118, 50⟩] 110 = none := by decide
    rw [hnone]
    nofun

/-- `startLine` is the line of the map's first location, when it is known. -/
theorem startLine_mapped (base : Method) (c : CompiledMethod) {first : AddrLocation}
    {rest : List AddrLocation} {line : Int} (hnative : base.isNative = false)
    (hmap : MapOrdered c (first :: rest)) (hfit : c.startAddr + c.codeSize ≤ 2 ^ 64)
    (hline : (MappedMethod.new base c).lineOf first = some line) :
    ∃ m, (MappedMethod.new base c).loadAddrLocationMap (first :: rest) = .ok m ∧
      m.startLine = line := by
  obtain ⟨rs, hload, -, -, hget⟩ :=
    MappedMethod.loadAddrLocationMap_spec base c hnative hmap hfit
  refine ⟨_, hload, ?_⟩
  have hfirst : rs.getData c.startAddr = some line := by
    rw [hget _ (le_refl _), mappedLine, hline]
    exact if_pos (hmap.inside first List.mem_cons_self).1
  show (if rs.isEmpty then -1 else (rs.getData c.startAddr).getD 0) = line
  rw [hfirst, if_neg]
  · rfl
  · intro hempty
    rw [RangeSet.getData_of_isEmpty hempty] at hfirst
    cases hfirst

end DroidPerf
