import Kokos.ConsoleRuns
import Kokos.Pci
import Kokos.WordBits
import Mathlib.Data.List.ProdSigma

/-! What the scan of the bus reports, for any configuration space. -/
namespace Kokos.Pci
open ByteMemory ByteStrings Console ConsolePrints CountedLoops WordBits

/-! The registers. -/

section
variable {bus slot function : Nat} {offset : BitVec 64} {p : Ports}

theorem fieldsAdd (b : bus < 2^8) (s : slot < 2^5) (f : function < 2^3) (r : Nat) (small : r < 2^8) :
    2^31 ||| bus*2^16 ||| slot*2^11 ||| function*2^8 ||| r = 2^31 + (bus*2^16 + (slot*2^11 + (function*2^8 + r))) := by
  have first := orAddPlaced function small
  have second := orAddPlaced slot (show function*2^8 + r < 2^11 by omega)
  have third := orAddPlaced bus (show slot*2^11 + (function*2^8 + r) < 2^16 by omega)
  have last := orAddPlaced 1 (show bus*2^16 + (slot*2^11 + (function*2^8 + r)) < 2^31 by omega)
  rw [Nat.or_assoc,Nat.or_assoc,Nat.or_assoc,first,second,third]
  exact last

theorem fieldPlaced {w at_ x : Nat} (fits : x < 2^w) (place : w + at_ < 64) :
    ((BitVec.ofNat 64 x &&& BitVec.ofNat 64 (2^w - 1)) <<< at_).toNat = x*2^at_ := by
  have width : 2^w < 2^64 := Nat.pow_lt_pow_right (by decide) (by omega)
  have top : x*2^at_ < 2^64 := by
    calc x*2^at_ < 2^w*2^at_ := Nat.mul_lt_mul_of_pos_right fits (Nat.two_pow_pos at_)
      _ = 2^(w+at_) := (Nat.pow_add 2 w at_).symm
      _ < 2^64 := Nat.pow_lt_pow_right (by decide) place
  rw [BitVec.toNat_shiftLeft,BitVec.toNat_and,BitVec.toNat_ofNat,BitVec.toNat_ofNat,Nat.mod_eq_of_lt (by omega : x < 2^64),
    Nat.mod_eq_of_lt (by omega : 2^w - 1 < 2^64),Nat.and_two_pow_sub_one_eq_mod,Nat.mod_eq_of_lt fits,Nat.shiftLeft_eq,Nat.mod_eq_of_lt top]

theorem configAddress (b : bus < 2^8) (s : slot < 2^5) (f : function < 2^3) (offset : BitVec 64) :
    ((1#64 <<< 31 ||| (BitVec.ofNat 64 bus &&& 0b11111111) <<< 16 ||| (BitVec.ofNat 64 slot &&& 0b11111) <<< 11 |||
      (BitVec.ofNat 64 function &&& 0b111) <<< 8 ||| (offset &&& 0b11111100)).setWidth 32).toNat =
      2^31 + (bus*2^16 + (slot*2^11 + (function*2^8 + offset.toNat / 2^2 % 2^6 * 2^2))) := by
  have register : (offset &&& 0b11111100).toNat = offset.toNat / 2^2 % 2^6 * 2^2 := andField offset.toNat 2 6
  have enable : (1#64 <<< 31).toNat = 2^31 := rfl
  have busField : ((BitVec.ofNat 64 bus &&& 0b11111111) <<< 16).toNat = bus*2^16 := @fieldPlaced 8 16 bus b (by decide)
  have slotField : ((BitVec.ofNat 64 slot &&& 0b11111) <<< 11).toNat = slot*2^11 := @fieldPlaced 5 11 slot s (by decide)
  have functionField : ((BitVec.ofNat 64 function &&& 0b111) <<< 8).toNat = function*2^8 := @fieldPlaced 3 8 function f (by decide)
  rw [BitVec.toNat_setWidth,BitVec.toNat_or,BitVec.toNat_or,BitVec.toNat_or,BitVec.toNat_or,enable,busField,slotField,functionField,register]
  rw [fieldsAdd b s f _ (by omega)]
  exact Nat.mod_eq_of_lt (by omega)

theorem configRead (b : bus < 2^8) (s : slot < 2^5) (f : function < 2^3) (offset : BitVec 64) (p : Ports) :
    (pciConfigRead32 (.ofNat 64 bus) (.ofNat 64 slot) (.ofNat 64 function) offset p).1 = p.space bus slot function (offset.toNat / 2^2 % 2^6) ∧
    (pciConfigRead32 (.ofNat 64 bus) (.ofNat 64 slot) (.ofNat 64 function) offset p).2.space = p.space := by
  have address := configAddress b s f offset
  unfold pciConfigRead32
  dsimp only
  generalize (1#64 <<< 31 ||| (BitVec.ofNat 64 bus &&& 0b11111111) <<< 16 ||| (BitVec.ofNat 64 slot &&& 0b11111) <<< 11 |||
    (BitVec.ofNat 64 function &&& 0b111) <<< 8 ||| (offset &&& 0b11111100)).setWidth 32 = x at address
  refine ⟨?_,rfl⟩
  have enabled : 2^31 ≤ x.toNat := by omega
  have busField : x.toNat / 2^16 % 2^8 = bus := by omega
  have slotField : x.toNat / 2^11 % 2^5 = slot := by omega
  have functionField : x.toNat / 2^8 % 2^3 = function := by omega
  have register : x.toNat / 2^2 % 2^6 = offset.toNat / 2^2 % 2^6 := by omega
  unfold portIn32 portOut32
  rw [if_pos rfl]
  dsimp only
  rw [if_pos ⟨rfl,enabled⟩,busField,slotField,functionField,register]

theorem fieldRead (b : bus < 2^8) (s : slot < 2^5) (f : function < 2^3) (w : Nat) (offset shift : BitVec 64) (p : Ports)
    {mask : BitVec 32} (whole : mask.setWidth w = BitVec.allOnes w) :
    (((pciConfigRead32 (.ofNat 64 bus) (.ofNat 64 slot) (.ofNat 64 function) offset p).1 >>> shift) &&& mask).setWidth w =
      (p.space bus slot function (offset.toNat / 2^2 % 2^6) >>> shift).setWidth w := by
  rw [(configRead b s f offset p).1,BitVec.setWidth_and,whole]
  exact BitVec.and_allOnes

theorem read32Space (bus slot function offset : BitVec 64) (p : Ports) : (pciConfigRead32 bus slot function offset p).2.space = p.space := rfl

def reportOf (space : ConfigSpace) (bus slot function : Nat) : Report where
  bus := bus
  slot := slot
  function := function
  vendor := (space bus slot function 0).setWidth 16
  device := (space bus slot function 0 >>> 16).setWidth 16
  classCode := (space bus slot function 2 >>> 24).setWidth 8
  subclass := (space bus slot function 2 >>> 16).setWidth 8
  headerType := (space bus slot function 3 >>> 16).setWidth 8

theorem reportRead (b : bus < 2^8) (s : slot < 2^5) (f : function < 2^3) (p : Ports) :
    (readReport bus slot function p).1 = reportOf p.space bus slot function ∧ (readReport bus slot function p).2.space = p.space := by
  refine ⟨?_,rfl⟩
  unfold readReport
  have low16 : (0xffff : BitVec 32).setWidth 16 = BitVec.allOnes 16 := rfl
  have low8 : (0xff : BitVec 32).setWidth 8 = BitVec.allOnes 8 := rfl
  simp only [pciConfigRead16,pciConfigRead8,fieldRead b s f 16 _ _ _ low16,fieldRead b s f 8 _ _ _ low8,read32Space]
  rfl

def multifunction (space : ConfigSpace) (bus slot function : Nat) : Bool := (space bus slot function 3).getLsbD 23

theorem headerMultifunction (space : ConfigSpace) (bus slot function : Nat) :
    decide ((reportOf space bus slot function).headerType &&& 0b10000000 = 0b10000000) = multifunction space bus slot function := by
  have bit : (reportOf space bus slot function).headerType.getLsbD 7 = multifunction space bus slot function := by
    unfold reportOf multifunction
    rw [BitVec.getLsbD_setWidth,BitVec.getLsbD_ushiftRight]
    rfl
  rw [← bit,show (0b10000000 : BitVec 8) = BitVec.twoPow 8 7 from rfl,BitVec.and_twoPow]
  cases (reportOf space bus slot function).headerType.getLsbD 7 with
  | false => rfl
  | true => rfl
end

/-! The text of a report. -/

section
variable {fuel dest : Nat} {stack : Memory}

theorem printThen {base : Nat} {next : State → Option State} (enough : 32 < fuel) (two : 2 ≤ base) (high : base ≤ 36)
    (num : BitVec 32) (s : State) (returns : ∀ t, ∃ u, next t = some u) :
    ∃ u, (printU32 fuel dest stack num base s).bind next = some u := by
  obtain ⟨r,printed,_⟩ := @unsignedPrints fuel dest base stack s 32 num two high (by decide) enough
  unfold printU32 consolePrintU32
  rw [printed]
  exact returns r.console

theorem reportPrinted (enough : 32 < fuel) (s : State) (r : Report) : ∃ t, printReport fuel dest stack s r = some t := by
  refine printThen enough (by decide) (by decide) _ _ fun s => ?_
  refine printThen enough (by decide) (by decide) _ _ fun s => ?_
  refine printThen enough (by decide) (by decide) _ _ fun s => ?_
  refine printThen enough (by decide) (by decide) _ _ fun s => ?_
  refine printThen enough (by decide) (by decide) _ _ fun s => ?_
  refine printThen enough (by decide) (by decide) _ _ fun s => ?_
  refine printThen enough (by decide) (by decide) _ _ fun s => ?_
  refine printThen enough (by decide) (by decide) _ _ fun s => ?_
  exact printThen enough (by decide) (by decide) _ _ fun s => ⟨_,rfl⟩
end

/-! The scan. -/

def present (space : ConfigSpace) (bus slot function : Nat) : Bool := space bus slot function 0 ≠ 0xFFFFFFFF

def Proper (space : ConfigSpace) : Prop := ∀ bus slot function, bus < 256 → slot < 32 → 0 < function → function < 8 →
  present space bus slot function = true → present space bus slot 0 = true ∧ multifunction space bus slot 0 = true

structure Found (fuel dest : Nat) (stack : Memory) (s : Scanner) (found : List Report) (t : Scanner) : Prop where
  space : t.ports.space = s.ports.space
  reports : t.reports = s.reports ++ found
  console : found.foldlM (printReport fuel dest stack) s.console = some t.console

def existing (space : ConfigSpace) (bus slot first left : Nat) : List Report :=
  ((List.range' first left).filter fun function => present space bus slot function).map fun function => reportOf space bus slot function

section
variable {fuel dest bus slot function left : Nat} {stack : Memory} {s t u : Scanner} {space : ConfigSpace}

theorem foundNone (same : t.ports.space = s.ports.space) (reports : t.reports = s.reports) (console : t.console = s.console) :
    Found fuel dest stack s [] t :=
  ⟨same,reports.trans (List.append_nil _).symm,congrArg _ console.symm⟩

theorem foundTrans {before after : List Report} (first : Found fuel dest stack s before t) (second : Found fuel dest stack t after u) :
    Found fuel dest stack s (before ++ after) u := by
  refine ⟨second.space.trans first.space,?_,?_⟩
  · rw [second.reports,first.reports,List.append_assoc]
  · rw [List.foldlM_append,first.console]
    exact second.console

theorem existingAbsent (absent : present space bus slot function = false) :
    existing space bus slot function (left+1) = existing space bus slot (function+1) left := by
  unfold existing
  rw [List.range'_succ,List.filter_cons_of_neg (by rw [absent]; decide)]

theorem existingPresent (here : present space bus slot function = true) :
    existing space bus slot function (left+1) = [reportOf space bus slot function] ++ existing space bus slot (function+1) left := by
  unfold existing
  rw [List.range'_succ,List.filter_cons_of_pos here]
  rfl

theorem existingNone (none : ∀ g, function ≤ g → g < function + left → present space bus slot g = false) : existing space bus slot function left = [] := by
  unfold existing
  rw [List.map_eq_nil_iff,List.filter_eq_nil_iff]
  intro g member there
  obtain ⟨low,high⟩ := List.mem_range'_1.mp member
  rw [none g low high] at there
  cases there

/-! One function. -/

theorem deviceRead (b : bus < 2^8) (d : slot < 2^5) (f : function < 2^3) (p : Ports) :
    decide ((pciConfigRead32 (.ofNat 64 bus) (.ofNat 64 slot) (.ofNat 64 function) 0 p).1 = 0xFFFFFFFF) = !present p.space bus slot function := by
  rw [(configRead b d f 0 p).1]
  unfold present
  rw [decide_not,Bool.not_not]
  rfl

theorem functionAbsent (b : bus < 2^8) (d : slot < 2^5) (f : function < 2^3) (isMultifunction : Bool)
    (absent : present s.ports.space bus slot function = false) :
    ∃ t, Found fuel dest stack s [] t ∧ scanFunctions fuel dest stack bus slot (left+1) function isMultifunction s =
      scanFunctions fuel dest stack bus slot left (function+1) isMultifunction t := by
  have none := deviceRead b d f s.ports
  rw [absent,Bool.not_false] at none
  refine ⟨_,?_,if_pos (of_decide_eq_true none)⟩
  exact foundNone rfl rfl rfl

theorem functionPresent (enough : 32 < fuel) (b : bus < 2^8) (d : slot < 2^5) (f : function < 2^3) (isMultifunction : Bool)
    (here : present s.ports.space bus slot function = true) :
    ∃ t, Found fuel dest stack s [reportOf s.ports.space bus slot function] t ∧
      scanFunctions fuel dest stack bus slot (left+1) function isMultifunction s =
        if isMultifunction || multifunction s.ports.space bus slot function then
          scanFunctions fuel dest stack bus slot left (function+1) (isMultifunction || multifunction s.ports.space bus slot function) t
        else some t := by
  have some_ := deviceRead b d f s.ports
  rw [here,Bool.not_true] at some_
  have read := reportRead b d f (pciConfigRead32 (.ofNat 64 bus) (.ofNat 64 slot) (.ofNat 64 function) 0 s.ports).2
  rw [read32Space] at read
  obtain ⟨report,space⟩ := read
  have bit := headerMultifunction s.ports.space bus slot function
  obtain ⟨console,printed⟩ := @reportPrinted fuel dest stack enough s.console (reportOf s.ports.space bus slot function)
  refine ⟨⟨_,console,s.reports ++ [reportOf s.ports.space bus slot function]⟩,⟨space,rfl,?_⟩,?_⟩
  · rw [List.foldlM_cons,printed]
    rfl
  · rw [scanFunctions]
    dsimp only
    rw [if_neg (of_decide_eq_false some_),report,printed,bit,Option.bind_some]

/-! The functions of a slot. -/

def Onward (space : ConfigSpace) (bus slot function : Nat) (isMultifunction : Bool) : Prop :=
  isMultifunction = true ∨ ∀ g, function < g → g < 8 → present space bus slot g = true →
    present space bus slot function = true ∧ multifunction space bus slot function = true

theorem onwardAbsent {isMultifunction : Bool} (onward : Onward space bus slot function isMultifunction)
    (absent : present space bus slot function = false) : Onward space bus slot (function+1) isMultifunction := by
  rcases onward with seen | none
  · exact Or.inl seen
  · refine Or.inr fun g above below there => ?_
    have here := (none g (by omega) below there).1
    rw [absent] at here
    cases here

theorem functionsFound {isMultifunction : Bool} (enough : 32 < fuel) (b : bus < 2^8) (d : slot < 2^5) (inside : function + left ≤ 8)
    (onward : Onward s.ports.space bus slot function isMultifunction) :
    ∃ t, scanFunctions fuel dest stack bus slot left function isMultifunction s = some t ∧
      Found fuel dest stack s (existing s.ports.space bus slot function left) t := by
  induction left generalizing function isMultifunction s with
  | zero => exact ⟨s,rfl,foundNone rfl rfl rfl⟩
  | succ left ih =>
    have f : function < 2^3 := by omega
    cases here : present s.ports.space bus slot function with
    | false =>
      obtain ⟨t,first,pass⟩ := @functionAbsent fuel dest bus slot function left stack s b d f isMultifunction here
      have onward' := onwardAbsent onward here
      rw [← first.space] at onward'
      obtain ⟨u,returns,rest⟩ := ih (by omega) onward'
      rw [pass,existingAbsent here,← first.space]
      exact ⟨u,returns,foundTrans first rest⟩
    | true =>
      obtain ⟨t,first,pass⟩ := @functionPresent fuel dest bus slot function left stack s enough b d f isMultifunction here
      rw [pass,existingPresent here]
      cases more : isMultifunction || multifunction s.ports.space bus slot function with
      | true =>
        obtain ⟨u,returns,rest⟩ := @ih (function+1) t true (by omega) (Or.inl rfl)
        rw [first.space] at rest
        exact ⟨u,returns,foundTrans first rest⟩
      | false =>
        -- The loop stops here, and nothing is left out.
        obtain ⟨unseen,clear⟩ := Bool.or_eq_false_iff.mp more
        have none : existing s.ports.space bus slot (function+1) left = [] := by
          refine existingNone fun g low high => Bool.eq_false_iff.mpr fun there => ?_
          rcases onward with seen | bit
          · rw [unseen] at seen
            cases seen
          · have set := (bit g (by omega) (by omega) there).2
            rw [clear] at set
            cases set
        rw [none,List.append_nil]
        exact ⟨t,rfl,first⟩

/-! The slots of a bus, and the buses. -/

theorem slotFound (enough : 32 < fuel) (b : bus < 2^8) (d : slot < 2^5) (proper : Proper s.ports.space) :
    ∃ t, scanFunctions fuel dest stack bus slot 8 0 false s = some t ∧
      Found fuel dest stack s (existing s.ports.space bus slot 0 8) t :=
  functionsFound enough b d (by decide) (Or.inr fun g above below there => proper bus slot g b d above below there)

theorem loopFound {n : Nat} {body : Nat → Scanner → Option Scanner} {found : Nat → List Report}
    (passes : ∀ i t, i < n → t.ports.space = s.ports.space → ∃ u, body i t = some u ∧ Found fuel dest stack t (found i) u) :
    ∃ t, tryUp n body s = some t ∧ Found fuel dest stack s ((List.range n).flatMap found) t := by
  refine @tryRule Scanner n s body (fun i t => Found fuel dest stack s ((List.range i).flatMap found) t) (foundNone rfl rfl rfl) ?_
  intro i t inside before
  obtain ⟨u,pass,here⟩ := passes i t inside before.space
  refine ⟨u,pass,?_⟩
  rw [List.range_succ,List.flatMap_append,List.flatMap_singleton]
  exact foundTrans before here

def grid (space : ConfigSpace) (buses slots : Nat) : List Report :=
  (List.range buses).flatMap fun bus => (List.range slots).flatMap fun slot => existing space bus slot 0 8

theorem scanFound (enough : 32 < fuel) (proper : Proper s.ports.space) :
    ∃ t, pciScan fuel dest stack s = some t ∧ Found fuel dest stack s (grid s.ports.space 255 31) t := by
  refine loopFound fun bus t b same => ?_
  rw [← same] at proper ⊢
  refine loopFound fun slot u d same' => ?_
  rw [← same'] at proper ⊢
  exact slotFound enough (Nat.lt_succ_of_lt b) (Nat.lt_succ_of_lt d) proper
end

/-! The places of the functions. -/

section
variable {space : ConfigSpace}

def Report.place (r : Report) : Nat × Nat × Nat := (r.bus,r.slot,r.function)

theorem gridPlaces (space : ConfigSpace) (buses slots : Nat) : (grid space buses slots).map Report.place =
    (List.range buses ×ˢ List.range slots ×ˢ List.range 8).filter fun place => present space place.1 place.2.1 place.2.2 := by
  simp only [grid,existing,SProd.sprod,List.product,List.map_flatMap,List.filter_flatMap,List.filter_map,List.map_map,
    Function.comp_def,List.range_eq_range']
  rfl

def Occupied (space : ConfigSpace) (place : Nat × Nat × Nat) : Prop :=
  place.1 < 256 ∧ place.2.1 < 32 ∧ place.2.2 < 8 ∧ present space place.1 place.2.1 place.2.2 = true

def ReportsEach (space : ConfigSpace) (reports : List Report) : Prop :=
  (reports.map Report.place).Nodup ∧ ∀ place, place ∈ reports.map Report.place ↔ Occupied space place

theorem gridMember {buses slots : Nat} {place : Nat × Nat × Nat} : place ∈ (grid space buses slots).map Report.place ↔
    place.1 < buses ∧ place.2.1 < slots ∧ place.2.2 < 8 ∧ present space place.1 place.2.1 place.2.2 = true := by
  obtain ⟨bus,slot,function⟩ := place
  rw [gridPlaces,List.mem_filter,List.mem_product,List.mem_product,List.mem_range,List.mem_range,List.mem_range,and_assoc,and_assoc]

theorem gridOnce (space : ConfigSpace) (buses slots : Nat) : ((grid space buses slots).map Report.place).Nodup := by
  rw [gridPlaces]
  exact (List.nodup_range.product (List.nodup_range.product List.nodup_range)).filter _

theorem gridReports {buses slots : Nat} {r : Report} (member : r ∈ grid space buses slots) : r = reportOf space r.bus r.slot r.function := by
  obtain ⟨bus,_,member⟩ := List.mem_flatMap.mp member
  obtain ⟨slot,_,member⟩ := List.mem_flatMap.mp member
  obtain ⟨function,_,rfl⟩ := List.mem_map.mp member
  rfl

/-- The loops over the buses and the slots leave out the last one of each. -/
theorem gridEachIff : ReportsEach space (grid space 255 31) ↔ ∀ place, Occupied space place → place.1 ≠ 255 ∧ place.2.1 ≠ 31 := by
  constructor
  · rintro ⟨_,each⟩ place there
    obtain ⟨bus,slot,_⟩ := gridMember.mp ((each place).mpr there)
    omega
  · intro inner
    refine ⟨gridOnce space 255 31,fun place => gridMember.trans ⟨?_,fun there => ?_⟩⟩
    · rintro ⟨bus,slot,function,there⟩
      exact ⟨by omega,by omega,function,there⟩
    · obtain ⟨bus,slot⟩ := inner place there
      obtain ⟨bus',slot',function,there⟩ := there
      exact ⟨by omega,by omega,function,there⟩
end

theorem scanReportsIff {fuel dest : Nat} {stack : Memory} {s : Scanner} (enough : 32 < fuel) (proper : Proper s.ports.space) (first : s.reports = []) :
    ∃ t, pciScan fuel dest stack s = some t ∧ (∀ r ∈ t.reports, r = reportOf s.ports.space r.bus r.slot r.function) ∧
      t.reports.foldlM (printReport fuel dest stack) s.console = some t.console ∧
      (ReportsEach s.ports.space t.reports ↔ ∀ place, Occupied s.ports.space place → place.1 ≠ 255 ∧ place.2.1 ≠ 31) := by
  obtain ⟨t,returns,_,reports,console⟩ := @scanFound fuel dest stack s enough proper
  rw [first,List.nil_append] at reports
  refine ⟨t,returns,?_⟩
  rw [reports]
  exact ⟨fun r member => gridReports member,console,gridEachIff⟩

def oneDevice (bus slot : Nat) : ConfigSpace := fun b d f r =>
  if b = bus ∧ d = slot ∧ f = 0 then (if r = 0 then 0x29188086 else 0) else 0xFFFFFFFF

def scannerOf (space : ConfigSpace) : Scanner := ⟨⟨space,0⟩,bootState,[]⟩

theorem oneProper (bus slot : Nat) : Proper (oneDevice bus slot) := by
  intro b d f _ _ above _ there
  have absent : oneDevice bus slot b d f 0 = 0xFFFFFFFF := if_neg fun here => absurd here.2.2 (Nat.ne_of_gt above)
  exact absurd absent (of_decide_eq_true there)

theorem scanReportsFirst : ∃ t, pciScan 33 0 (fun _ => 0) (scannerOf (oneDevice 0 0)) = some t ∧
    (∀ r ∈ t.reports, r = reportOf (oneDevice 0 0) r.bus r.slot r.function) ∧
    t.reports.foldlM (printReport 33 0 fun _ => 0) bootState = some t.console ∧
    (ReportsEach (oneDevice 0 0) t.reports ↔ ∀ place, Occupied (oneDevice 0 0) place → place.1 ≠ 255 ∧ place.2.1 ≠ 31) :=
  @scanReportsIff 33 0 (fun _ => 0) (scannerOf (oneDevice 0 0)) (by decide) (oneProper 0 0) rfl

theorem lastSlotMissed : Proper (oneDevice 0 31) ∧ ∃ t, pciScan 33 0 (fun _ => 0) (scannerOf (oneDevice 0 31)) = some t ∧
    ¬ ReportsEach (oneDevice 0 31) t.reports := by
  obtain ⟨t,returns,_,reports,_⟩ := @scanFound 33 0 (fun _ => 0) (scannerOf (oneDevice 0 31)) (by decide) (oneProper 0 31)
  have reported : t.reports = grid (oneDevice 0 31) 255 31 := reports.trans (List.nil_append _)
  have there : Occupied (oneDevice 0 31) (0,31,0) := ⟨by decide,by decide,by decide,by decide⟩
  refine ⟨oneProper 0 31,t,returns,fun each => ?_⟩
  rw [reported] at each
  exact (gridEachIff.mp each (0,31,0) there).2 rfl

end Kokos.Pci
