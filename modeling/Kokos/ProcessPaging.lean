import Kokos.PagingRegions

/-! The page tables of a process, as cpu_initialize and scheduler_execute build them:
all of memory at its own address with huge pages, the local APIC in level-4 slot 1,
and a stack that paging_map places. -/
namespace Kokos.Paging
open ByteMemory BudgetedCalls RadixTables WordBits

def alignToNext (n step : Nat) : Nat := (((n + (2^64 - 1)) % 2^64 &&& (2^64 - step)) + step) % 2^64

def cpuApicAddress : Nat := 0x8000000000

/-- sizeof(struct apic): 84 registers, 16 bytes apart. -/
def apicSize : Nat := 84*16

inductive Caller where | cpuInitialize | schedulerExecute
  deriving DecidableEq, Repr

def Caller.stackFlags : Caller → Nat
  | .cpuInitialize => flagRead ||| flagWrite
  | .schedulerExecute => flagRead ||| flagWrite ||| flagUser

section
variable {σ : Type} [PageAllocator σ]

def newContext : Kernel σ PagingContext := do
  let table ← memoryPhysicalAllocate
  recordTable table
  memoryZero table 4096
  return nullContext table

def identityMap (c : PagingContext) (maxMemoryAddress : Nat) : Kernel σ Nat := do
  let huge ← hugepagesSupported
  if huge then
    pagingMapPhysicalAt c 0 0 (alignToNext maxMemoryAddress 0x40000000) (flag1GB ||| flagRead ||| flagWrite)
  else pagingMapPhysicalAt c 0 0 (alignToNext maxMemoryAddress 0x200000) (flag2MB ||| flagRead ||| flagWrite)

/-- The new context and its stack, or none where cpu_initialize panics because the
APIC could not be mapped; scheduler_execute does not look. -/
def mapProcess (caller : Caller) (fuel maxMemoryAddress localApic : Nat) : Kernel σ (Option (PagingContext × Nat)) := do
  let c ← newContext
  let _ ← identityMap c maxMemoryAddress
  let apic ← pagingMapPhysicalAt c localApic cpuApicAddress apicSize (flagWrite ||| flagRead)
  if apic = 0 ∧ caller = .cpuInitialize then return none
  else
    let (stack,c) ← pagingMap fuel c (4096*8) caller.stackFlags
    return some (c,stack)

theorem alignBlocks {n k d : Nat} (some : 0 < n) (bound : n ≤ 2^39) (size : k = 12+9*(3-d)) (small : k ≤ 30) :
    blocks d (alignToNext n (2^k)) = (n-1)/2^k + 1 ∧ alignToNext n (2^k) ≠ 0 ∧ alignToNext n (2^k) ≤ 2^40 := by
  have power : 2^k ≤ 2^30 := Nat.pow_le_pow_right (by decide) small
  have positive : 0 < 2^k := Nat.two_pow_pos k
  have whole : 2^64 = 2^k * 2^(64-k) := by rw [← Nat.pow_add,show k+(64-k) = 64 by omega]
  have before : (n + (2^64 - 1)) % 2^64 = n-1 := by omega
  have field : (n-1) &&& (2^64 - 2^k) = (n-1)/2^k*2^k := by
    have cut := andField (n-1) k (64-k)
    rw [show k+(64-k) = 64 by omega] at cut
    rw [cut,Nat.mod_eq_of_lt]
    exact Nat.div_lt_of_lt_mul (by omega)
  have below : (n-1)/2^k*2^k ≤ n-1 := Nat.div_mul_le_self _ _
  have value : alignToNext n (2^k) = ((n-1)/2^k + 1)*2^k := by
    unfold alignToNext
    rw [before,field,Nat.add_mul,Nat.one_mul]
    exact Nat.mod_eq_of_lt (by omega)
  have range : ((n-1)/2^k + 1)*2^k ≤ 2^40 := by
    rw [Nat.add_mul,Nat.one_mul]
    omega
  have least : 2^k ≤ ((n-1)/2^k + 1)*2^k := Nat.le_mul_of_pos_left _ (Nat.succ_pos _)
  have last : (((n-1)/2^k + 1)*2^k - 1)/2^k = (n-1)/2^k := by
    rw [Nat.add_mul,Nat.one_mul,Nat.add_sub_assoc positive,Nat.mul_comm,Nat.mul_add_div positive,
      Nat.div_eq_of_lt (show 2^k - 1 < 2^k by omega),Nat.add_zero]
  refine ⟨?_,by omega,by omega⟩
  unfold blocks units
  rw [← size,value,show (((n-1)/2^k + 1)*2^k + (2^64 - 1)) % 2^64 = ((n-1)/2^k + 1)*2^k - 1 by omega,
    Nat.shiftRight_eq_div_pow,last]

structure Ledger (w : World σ) : Prop where
  tables : ∀ g ∈ w.tables, IsPage g ∧ PageAllocator.Taken w.allocator g
  inside : ∀ a ∈ w.accesses, ∃ t ∈ w.tables, t ≤ a.1 ∧ a.1+a.2 ≤ t+4096

variable {root : Nat} {w : World σ} {short : Prop}

theorem newContextRuns (ledger : Ledger w) :
    Runs pool short 1 newContext w fun c w' => ∃ root, c = nullContext root ∧ Tree w' root ∧
      (∀ d n, entries w'.memory root d n = 0) ∧ w'.hugepagesSupported = w.hugepagesSupported ∧
      ∀ p, PageAllocator.Taken w.allocator p → PageAllocator.Taken w'.allocator p := by
  unfold Runs
  cases drawn : PageAllocator.allocate w.allocator with
  | none =>
    have empty := PageAllocator.empty drawn
    simp only [newContext,memoryPhysicalAllocate,bind,StateT.bind,Except.bind,drawn]
    unfold pool
    omega
  | some pair =>
    obtain ⟨g,s⟩ := pair
    have page : IsPage g := PageAllocator.isPage drawn
    obtain ⟨_,held⟩ := PageAllocator.fresh drawn
    have keeps := PageAllocator.keeps drawn
    simp only [newContext,memoryPhysicalAllocate,recordTable,memoryZero,bind,StateT.bind,Except.bind,drawn]
    show (∃ root, nullContext g = nullContext root ∧ Tree _ root ∧ _ ∧ _ ∧ _) ∧ _
    have zero : ∀ d n, entries (zeroBytes w.memory g 4096) g d n = 0 := entriesBlank fun i hi => by
      rw [rowZero w.memory page.1 page.1 hi,if_pos rfl]
    refine ⟨⟨g,rfl,treeBlank zero List.mem_cons_self ?_ ?_,zero,rfl,keeps⟩,PageAllocator.spends drawn⟩
    · intro t member
      rcases List.mem_cons.mp member with rfl | old
      · exact ⟨page,held⟩
      · exact ⟨(ledger.tables t old).1,keeps t (ledger.tables t old).2⟩
    · intro a member
      rcases List.mem_cons.mp member with rfl | old
      · exact ⟨g,List.mem_cons_self,Nat.le_refl _,Nat.le_refl _⟩
      · obtain ⟨t,here,span⟩ := ledger.inside a old
        exact ⟨t,List.mem_cons_of_mem _ here,span⟩

theorem frontierFixedRuns {d target bytes flags : Nat} {source : Source} (tree : Tree w root) (size : depthOf flags = d)
    (frontier : Frontier shape (entries w.memory root) d (numberAt target d)) (aligned : target % span d = 0)
    (indices : d = 3 → numberAt target 1 % 512 = numberAt target 2 % 512)
    (suits : Suits w.hugepagesSupported d source bytes) (room : numberAt target d + blocks d bytes < 512^(d+1)) :
    Runs pool short (3 + demand source d (numberAt target d) bytes)
      (mapFixed source (nullContext root) target bytes flags) w fun r w' => ∃ c' val, r = target ∧
        MapResult source root (numberAt target d) bytes flags (nullContext root) w w' true c' (blocks d bytes) val ∧
        Frontier shape (entries w'.memory root) d (numberAt target d + blocks d bytes) := by
  subst size
  have walkable : Walkable (entries w.memory root) (depthOf flags) target :=
    ⟨frontier.clear,fun deep _ => indices deep⟩
  refine runsPost (mapFixedRuns rfl tree walkable fun _ _ => frontierRunway rfl frontier) ?_
  rintro r w' ⟨ok,c',done,val,result,value,_,last⟩
  obtain rfl := resultFinished result room (last (suitsAccepts flags suits frontier.empty) aligned)
  have all := (result.succeeds rfl).1
  subst all
  have blank := blankLeaf (depthCases flags).2
  exact ⟨c',val,value,result,frontierFilled result.filled (Nat.le_refl _) (frontierLater blank frontier (by omega))⟩

def identityDepth (huge : Bool) : Nat := if huge then 1 else 2

def identityBytes (huge : Bool) (maxMemoryAddress : Nat) : Nat :=
  alignToNext maxMemoryAddress (span (identityDepth huge))

def identityFlags (huge : Bool) : Nat := (if huge then flag1GB else flag2MB) ||| flagRead ||| flagWrite

theorem identityBlocks {m : Nat} (huge : Bool) (some : 0 < m) (bound : m ≤ 2^39) :
    let count := blocks (identityDepth huge) (identityBytes huge m)
    0 < count ∧ count ≤ 512^identityDepth huge ∧ m ≤ count * span (identityDepth huge) ∧ identityBytes huge m ≠ 0 ∧
      identityBytes huge m ≤ 2^40 ∧ carries (identityDepth huge) count ≤ 513 := by
  cases huge with
  | true =>
    obtain ⟨count,rounded,top⟩ := alignBlocks (d := 1) (k := 30) some bound rfl (by decide)
    simp only [identityBytes,identityDepth,if_true,show span 1 = 2^30 from rfl,count,carries]
    exact ⟨by omega,by omega,by omega,rounded,top,by omega⟩
  | false =>
    obtain ⟨count,rounded,top⟩ := alignBlocks (d := 2) (k := 21) some bound rfl (by decide)
    simp only [identityBytes,identityDepth,Bool.false_eq_true,if_false,show span 2 = 2^21 from rfl,count,carries]
    exact ⟨by omega,by omega,by omega,rounded,top,by omega⟩

theorem identityRuns {m : Nat} (some : 0 < m) (bound : m ≤ 2^39) (tree : Tree w root)
    (zero : ∀ d n, entries w.memory root d n = 0) :
    Runs pool short 516 (identityMap (nullContext root) m) w fun _ w' => Tree w' root ∧
      Frontier shape (entries w'.memory root) 3 (512^3) ∧ entries w'.memory root 0 0 ≠ 0 ∧
      (∀ a < m, resolve (entries w'.memory root) a = a) ∧ w'.hugepagesSupported = w.hugepagesSupported ∧
      ∀ p, PageAllocator.Taken w.allocator p → PageAllocator.Taken w'.allocator p := by
  have call : identityMap (nullContext root) m w = mapFixed (.physical 0) (nullContext root) 0 (identityBytes w.hugepagesSupported m)
      (identityFlags w.hugepagesSupported) w := by
    unfold identityMap hugepagesSupported
    show (if w.hugepagesSupported then _ else _ : Kernel σ Nat) w = _
    cases w.hugepagesSupported <;> rfl
  have size : depthOf (identityFlags w.hugepagesSupported) = identityDepth w.hugepagesSupported := by
    cases w.hugepagesSupported <;> rfl
  have huge : identityDepth w.hugepagesSupported = 1 → w.hugepagesSupported = true := by
    cases w.hugepagesSupported <;> decide
  have depth : 1 ≤ identityDepth w.hugepagesSupported ∧ identityDepth w.hugepagesSupported ≤ 2 := by
    cases w.hugepagesSupported <;> decide
  obtain ⟨first,few,whole,rounded,_,cost⟩ := identityBlocks w.hugepagesSupported some bound
  generalize identityDepth w.hugepagesSupported = d at *
  generalize identityBytes w.hugepagesSupported m = bytes at *
  have number : numberAt 0 d = 0 := Nat.zero_div _
  have blank : ∀ e < 3, shape.leaf e 0 = false := blankLeaf (Nat.le_refl 3)
  have power : 512^d < 512^(d+1) := Nat.pow_lt_pow_right (by decide) (Nat.lt_succ_self d)
  have space : 512^d * span d = 2^39 := by
    have all := spaceSize (d := d) (by omega)
    rw [Nat.pow_succ,Nat.mul_right_comm] at all
    omega
  have frontier : Frontier shape (entries w.memory root) d (numberAt 0 d) := by
    rw [number]
    exact frontierBlank (fun e he => blank e (by omega)) zero
  have suits : Suits w.hugepagesSupported d (.physical 0) bytes := ⟨rounded,huge,Nat.zero_mod _⟩
  refine runsSame call (runsMono (frontierFixedRuns tree size frontier (Nat.zero_mod _) (fun deep => by omega) suits (by omega)) ?_ id ?_)
  · simp only [demand,number,Source.unit,Nat.mul_zero,Nat.zero_add]
    omega
  · rintro r w' ⟨c',val,_,result,after⟩
    have filled := result.filled
    rw [size,number] at filled
    rw [number,Nat.zero_add] at after
    have grounded := entriesGrounded w'.memory root
    refine ⟨result.tree,?_,?_,?_,result.evolves.huge,result.evolves.taken⟩
    · have later := frontierLater (fun e he => blank e (by omega)) after few
      have down := frontierDown (j := 3-d) (fun e he => blank e (by omega)) grounded later
      rwa [shapeFanout,← Nat.pow_add,show d+(3-d) = 3 by omega] at down
    · exact resultSlot result first (by rw [number]; exact Nat.zero_div _)
    · intro a below
      have range : blocks d bytes * span d ≤ 512^d * span d := Nat.mul_le_mul_right _ few
      have reach := physicalReaches size (Nat.zero_mod _) (by omega) (by rw [number]; omega) result a (by omega)
      rwa [number,Nat.zero_mul,Nat.zero_add] at reach

theorem apicRuns {apic : Nat} (tree : Tree w root) (frontier : Frontier shape (entries w.memory root) 3 (512^3))
    (aligned : apic % 4096 = 0) (bound : apic < 2^52) :
    Runs pool short 8 (pagingMapPhysicalAt (nullContext root) apic cpuApicAddress apicSize (flagWrite ||| flagRead)) w
      fun r w' => r = cpuApicAddress ∧ Tree w' root ∧ Evolves root w w' ∧
        (∃ val, Filled shape (entries w.memory root) (entries w'.memory root) 3 (512^3) 1 val) ∧
        Frontier shape (entries w'.memory root) 3 (512^3 + 1) ∧ entries w'.memory root 0 1 ≠ 0 ∧
        ∀ k < 4096, resolve (entries w'.memory root) (cpuApicAddress + k) = apic + k := by
  have number : numberAt cpuApicAddress 3 = 512^3 := by decide
  have count : blocks 3 apicSize = 1 := by decide
  have size : depthOf (flagWrite ||| flagRead) = 3 := rfl
  have suits : Suits w.hugepagesSupported 3 (.physical apic) apicSize := ⟨by decide,fun h => by omega,aligned⟩
  have cost : demand (.physical apic) 3 (512^3) apicSize = 0 := by
    unfold demand
    rw [count]
    rfl
  rw [← number] at frontier cost
  refine runsMono (frontierFixedRuns tree size frontier (by decide) (fun _ => by decide) suits (by decide)) (by omega) id ?_
  rintro r w' ⟨c',val,value,result,after⟩
  have filled := result.filled
  rw [size,number,count] at filled
  rw [number,count] at after
  refine ⟨value,result.tree,result.evolves,⟨val,filled⟩,after,?_,?_⟩
  · exact resultSlot result (j := 0) (by rw [count]; decide) (by rw [number,size]; decide)
  · intro k inside
    have reach := physicalReaches size aligned (by rw [count,show span 3 = 4096 from rfl]; omega) (by decide) result k
      (by rw [count]; exact inside)
    rwa [number] at reach

theorem stackRuns {fuel flags : Nat} (tree : Tree w root) (size : depthOf flags = 3) (long : 512 ≤ fuel)
    (frontier : Frontier shape (entries w.memory root) 3 (512^3 + 1))
    (memory : entries w.memory root 0 0 ≠ 0) (apic : entries w.memory root 0 1 ≠ 0) :
    Runs pool short 32 (pagingMap fuel (nullContext root) (4096*8) flags) w fun r w' => ∃ val, r.1 = 0x10000000000 ∧
      MapResult .allocated root (2*512^3) (4096*8) flags (nullContext root) w w' true r.2 8 val := by
  have count : blocks 3 (4096*8) = 8 := by decide
  have later : Frontier shape (entries w.memory root) 3 (2*512^3) :=
    frontierLater (blankLeaf (Nat.le_refl 3)) frontier (by omega)
  have cursor : Cursor root 3 2 (entries w.memory root) (nullContext root) (2*512^3) := by
    refine .null rfl (fun k less => ?_) (frontier.ahead 0 2 (by decide) (by rw [shapeFanout]; omega))
    match k, less with
    | 0, _ => exact memory
    | 1, _ => exact apic
  have spot : spotChoice (nullContext root) (4096*8) flags = .find 0 := spotNull (by omega) (by omega) root flags
  have start : startOf 3 2 (nullContext root) (4096*8) flags = 2*512^3 := by
    simp only [startOf,spot,PagingContext.position,nullTable,true_or,if_true]
  have suits : Suits w.hugepagesSupported 3 .allocated (4096*8) := ⟨by decide,rfl⟩
  have cost : demand .allocated 3 (2*512^3) (4096*8) = 8 := by
    unfold demand
    rw [count]
    decide
  have room : startOf 3 2 (nullContext root) (4096*8) flags + blocks 3 (4096*8) < 512^4 := by
    rw [start,count]
    omega
  refine runsMono (mapCursorRuns tree size (by decide) cursor later (by simp [spot]) (Or.inl (by omega)) suits room)
    (by rw [start]; omega) (fun few => by omega) ?_
  rw [start,count]
  rintro r w' ⟨val,value,result,_⟩
  have address : 2*512^3 * span 3 = 0x10000000000 := by simp [span]
  exact ⟨val,value.trans address,result⟩

theorem processMapped {caller : Caller} {fuel m apic : Nat} (ledger : Ledger w) (nonempty : 0 < m) (bound : m ≤ 2^39)
    (aligned : apic % 4096 = 0) (physical : apic < 2^52) (long : 512 ≤ fuel) :
    Runs pool False 557 (mapProcess caller fuel m apic) w fun r w' => ∃ c stack, r = some (c,stack) ∧
      (∀ a < m, pagingGetPhysicalAddress w'.memory c.level4Table a = a) ∧
      (∀ k < 4096, pagingGetPhysicalAddress w'.memory c.level4Table (cpuApicAddress + k) = apic + k) ∧
      (∀ o < 4096*8, identityBytes w.hugepagesSupported m ≤ stack + o ∧ cpuApicAddress + 4096 ≤ stack + o) ∧
      ∃ frame : Nat → Nat, (∀ i j, i < j → j < 8 → frame i ≠ frame j) ∧ ∀ i < 8, IsPage (frame i) ∧
        ¬ PageAllocator.Taken w.allocator (frame i) ∧ PageAllocator.Taken w'.allocator (frame i) ∧
        ∀ o < 4096, pagingGetPhysicalAddress w'.memory c.level4Table (stack + 4096*i + o) = frame i + o := by
  unfold mapProcess
  refine runsBind (d := 556) (newContextRuns ledger) ?_
  rintro c w1 ⟨root,rfl,tree1,zero,huge1,taken1⟩
  refine runsBind (d := 40) (identityRuns nonempty bound tree1 zero) ?_
  rintro _ w2 ⟨tree2,frontier2,slot0,memory,_,taken2⟩
  refine runsBind (d := 32) (apicRuns tree2 frontier2 aligned physical) ?_
  rintro _ w3 ⟨rfl,tree3,evolves3,⟨_,filled3⟩,frontier3,slot1,local3⟩
  rw [if_neg (fun failed => absurd failed.1 (by decide))]
  have kept : entries w3.memory root 0 0 ≠ 0 := by rwa [filledAbove filled3 (by decide) slot0]
  have size : depthOf caller.stackFlags = 3 := by cases caller <;> rfl
  refine runsBind (d := 0) (stackRuns tree3 size long frontier3 kept slot1) ?_
  rintro ⟨stack,c⟩ w4 ⟨val,rfl,result⟩
  have rooted : c.level4Table = root := result.rooted
  have filled4 := result.filled
  rw [size] at filled4
  -- The later mappings are behind this address, so they leave its translation.
  have same3 : ∀ a, numberAt a 3 < 512^3 → resolve (entries w3.memory root) a = resolve (entries w2.memory root) a :=
    fun a before => (resolveOutside (entriesGrounded _ _) (entriesGrounded _ _) filled3 (by decide) (Or.inl before)).1
  have same4 : ∀ a, numberAt a 3 < 2*512^3 → resolve (entries w4.memory root) a = resolve (entries w3.memory root) a :=
    fun a before => (resolveOutside (entriesGrounded _ _) (entriesGrounded _ _) filled4 (by decide) (Or.inl before)).1
  have number : ∀ a < 2^40, numberAt a 3 = a / 4096 := fun a less => numberOf (by omega)
  obtain ⟨_,_,_,_,top,_⟩ := identityBlocks w.hugepagesSupported nonempty bound
  obtain ⟨different,fresh⟩ := drawnFrames result
  have reach := resultReaches size (by decide) result
  have address : 2*512^3 * span 3 = 0x10000000000 := by simp [span]
  refine runsPure ⟨c,_,rfl,?_,?_,?_,fun i => val i &&& 0xFFFFFFFFFF000,different,?_⟩
  · intro a below
    have here := number a (by omega)
    rw [rooted,translation,same4 a (by omega),same3 a (by omega)]
    exact memory a below
  · intro k inside
    have here := number (cpuApicAddress + k) (by unfold cpuApicAddress; omega)
    rw [rooted,translation,same4 _ (by rw [here]; unfold cpuApicAddress; omega)]
    exact local3 k inside
  · intro o _
    unfold cpuApicAddress
    omega
  · intro i few
    obtain ⟨page,free,taken⟩ := fresh i few
    refine ⟨page,fun held => free (evolves3.taken _ (taken2 _ (taken1 _ held))),taken,fun o inside => ?_⟩
    have range : 4096*i+o < blocks 3 (4096*8) * span 3 := by
      rw [show blocks 3 (4096*8) = 8 by decide,show span 3 = 4096 from rfl]
      omega
    have here := reach (4096*i+o) range
    rw [show (4096*i+o) / span 3 = i by unfold span; omega,show (4096*i+o) % span 3 = o by unfold span; omega,address] at here
    rw [rooted,translation,Nat.add_assoc]
    exact here

end

theorem processMappedOneGigabyte : ∃ c stack w', mapProcess .cpuInitialize 512 0x40000000 0xFEE00000 (blank true).world = .ok (some (c,stack),w') ∧
    pagingGetPhysicalAddress w'.memory c.level4Table 0x3FFFFFFF = 0x3FFFFFFF ∧
    pagingGetPhysicalAddress w'.memory c.level4Table (cpuApicAddress + 0xF0) = 0xFEE00000 + 0xF0 ∧ cpuApicAddress + 4096 ≤ stack := by
  have ledger : Ledger (blank true).world := ⟨(blankSane true).tree.tables,(blankSane true).tree.inside⟩
  have returned : (mapProcess .cpuInitialize 512 0x40000000 0xFEE00000 (blank true).world).isOk = true := by decide +kernel
  -- The start is hidden, so that the specification is not evaluated.
  generalize (blank true).world = w at *
  cases run : mapProcess .cpuInitialize 512 0x40000000 0xFEE00000 w with
  | error stop =>
    rw [run] at returned
    cases returned
  | ok pair =>
    obtain ⟨c,stack,value,memory,apic,apart,_⟩ := runsReturned
      (processMapped ledger (by decide) (by decide) (by decide) (by decide) (Nat.le_refl 512)) run
    exact ⟨c,stack,pair.2,by rw [← value],memory _ (by decide),apic 0xF0 (by decide),(apart 0 (by decide)).2⟩

end Kokos.Paging
