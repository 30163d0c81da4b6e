import StackTape.Compile.Emit
import StackTape.Proofs.Gadget.Arithmetic
import StackTape.Proofs.Phase

/-!
# Phases of gadgets

A gadget between two states at home keeps to phases. Most gadgets never leave home. The byte-wise
accesses to variables, results and arguments do: they leave by the transition that puts the
bookmark and come home by the one that finds it.
-/

namespace StackTape

namespace Gadget

open Phased

variable {σ : Phased} {entry exit : Nat}

/-- A byte as an output. -/
theorem plain_val (b : Fin 256) : Symbol.Plain b := Symbol.plain_of_byte b.isLt

theorem plain_zero : Symbol.Plain 0 := Symbol.plain_of_lt (by decide)

/-! ## The top of the stack -/

theorem push_safe (w : Width) (value : Nat) (hentry : σ.At .home entry) (hexit : σ.At .home exit) :
    σ.Safe (push w value entry exit) :=
  chain_safe w.bytes hentry hexit fun i _ _ _ _ hs hn =>
    setFallback_safe hs (hn.allows (Symbol.plain_byteAt value i))

theorem pop_safe (w : Width) (hentry : σ.At .home entry) (hexit : σ.At .home exit) :
    σ.Safe (pop w entry exit) :=
  chain_safe w.bytes hentry hexit fun _ _ _ _ _ hs hn =>
    setFallback_safe hs (hn.allows plain_zero)

theorem copyByte_safe (distance : Nat) (hentry : σ.At .home entry) (hexit : σ.At .home exit) :
    σ.Safe (copyByte distance entry exit) := by
  refine (walk_keeps .left distance hentry).bind fun source σ₁ he₁ hsource => ?_
  refine branch_safe hsource fun v σ₂ he₂ => ?_
  refine (fresh_keeps .home).bind fun carry σ₃ he₃ hcarry => ?_
  refine (walk_keeps .right (distance - 1) hcarry).bind fun dest σ₄ he₄ hdest => ?_
  have hexit₄ := hexit.mono (((he₁.trans he₂).trans he₃).trans he₄)
  refine (setFallback_safe hdest (hexit₄.allows (plain_val v))).bind fun σ₅ he₅ => .pure ?_
  exact (hcarry.mono (he₄.trans he₅)).allows (plain_val v)

theorem dup_safe (w : Width) (hentry : σ.At .home entry) (hexit : σ.At .home exit) :
    σ.Safe (dup w entry exit) :=
  chain_safe w.bytes hentry hexit fun _ _ _ _ _ hs hn => copyByte_safe w.bytes hs hn

theorem exchangeByte_safe (span : Nat) (hentry : σ.At .home entry) (hexit : σ.At .home exit) :
    σ.Safe (exchangeByte span entry exit) := by
  refine (freshBlock_keeps 256 .home).bind fun back σ₁ he₁ hback => ?_
  refine Safe.bind (branch_safe (hentry.mono he₁) fun upper σ₂ he₂ => ?_) fun σ₂ he₂ => ?_
  · refine (fresh_keeps .home).bind fun carry σ₃ he₃ hcarry => ?_
    refine (walk_keeps .left (span - 1) hcarry).bind fun partner σ₄ he₄ hpartner => ?_
    refine Safe.bind (addRules_safe hpartner (byteRules_allows fun lower => ?_))
      fun σ₅ he₅ => .pure ?_
    · exact ((hback lower lower.isLt).mono ((he₂.trans he₃).trans he₄)).allows (plain_val upper)
    · exact (hcarry.mono (he₄.trans he₅)).allows (plain_val upper)
  · refine Safe.forM _ fun lower _ σ₃ he₃ => ?_
    have hlower := (hback lower lower.isLt).mono (he₂.trans he₃)
    refine (walk_keeps .right (span - 1) hlower).bind fun cell σ₄ he₄ hcell => ?_
    have hexit₄ := hexit.mono (((he₁.trans he₂).trans he₃).trans he₄)
    exact setFallback_safe hcell (hexit₄.allows (plain_val lower))

theorem swap_safe (w : Width) (offset : Nat) (hentry : σ.At .home entry)
    (hexit : σ.At .home exit) : σ.Safe (swap w offset entry exit) := by
  refine (walk_keeps .left w.bytes hentry).bind fun lowest σ₁ he₁ hlowest => ?_
  exact chain_safe w.bytes hlowest (hexit.mono he₁) fun _ _ _ _ _ hs hn =>
    exchangeByte_safe (w.bytes + offset) hs hn

/-! ## Frames and jumps -/

theorem enter_safe (hentry : σ.At .home entry) (hexit : σ.At .home exit) :
    σ.Safe (enter entry exit) :=
  setFallback_safe hentry (hexit.allows (Symbol.plain_of_lt (show 256 < 258 by decide)))

theorem alloc_safe (cells : Nat) (hentry : σ.At .home entry) (hexit : σ.At .home exit) :
    σ.Safe (alloc cells entry exit) := by
  unfold alloc
  split
  · exact setFallback_safe hentry (hexit.allows Symbol.plain_wildcard)
  · exact chain_safe cells hentry hexit fun _ _ _ _ _ hs hn =>
      setFallback_safe hs (hn.allows plain_zero)

theorem free_safe (cells : Nat) (hentry : σ.At .home entry) (hexit : σ.At .home exit) :
    σ.Safe (free cells entry exit) := by
  refine (trail_keeps (fun _ => rfl) (fun _ => plain_zero) cells hentry).bind
    fun last σ₁ he₁ hlast => ?_
  exact setFallback_safe hlast ((hexit.mono he₁).allows plain_zero)

theorem shiftUp_safe (cells : Nat) {carried : Block 256} (hexit : σ.At .home exit)
    (hcarried : ∀ b, b < 256 → σ.At .home (carried.first + b)) :
    σ.Safe (shiftUp exit cells carried) := by
  induction cells generalizing σ carried with
  | zero =>
    refine Safe.forM _ fun below _ σ₁ he₁ => ?_
    exact setFallback_safe ((hcarried below below.isLt).mono he₁)
      ((hexit.mono he₁).allows (plain_val below))
  | succ cells ih =>
    refine (freshBlock_keeps 256 .home).bind fun next σ₁ he₁ hnext => ?_
    refine Safe.bind (Safe.forM _ fun below _ σ₂ he₂ => ?_) fun σ₂ he₂ => ?_
    · refine addRules_safe ((hcarried below below.isLt).mono (he₁.trans he₂))
        (byteRules_allows fun v => ?_)
      exact ((hnext v v.isLt).mono he₂).allows (plain_val below)
    · exact ih (hexit.mono (he₁.trans he₂)) fun b hb => (hnext b hb).mono he₂

theorem makeArgs_safe (cells : Nat) (hentry : σ.At .home entry) (hexit : σ.At .home exit) :
    σ.Safe (makeArgs cells entry exit) := by
  have hplain : Symbol.Plain Symbol.argPointer := Symbol.plain_of_lt (by decide)
  cases cells with
  | zero => exact setFallback_safe hentry (hexit.allows hplain)
  | succ cells =>
    refine (walk_keeps .left (cells + 1) hentry).bind fun lowest σ₁ he₁ hlowest => ?_
    refine (freshBlock_keeps 256 .home).bind fun carried σ₂ he₂ hcarried => ?_
    refine Safe.bind (addRules_safe (hlowest.mono he₂) (byteRules_allows fun v => ?_))
      fun σ₃ he₃ => ?_
    · exact (hcarried v v.isLt).allows hplain
    · exact shiftUp_safe cells (hexit.mono ((he₁.trans he₂).trans he₃)) fun b hb =>
        (hcarried b hb).mono he₃

theorem jump_safe {target : Nat} (hentry : σ.At .home entry)
    (ht : σ.Allows .home (.skip .stay target)) : σ.Safe (jump entry target) :=
  setFallback_safe hentry ht

theorem branchOnZero_safe {onZero onNonzero : Nat} (hentry : σ.At .home entry)
    (hzero : σ.At .home onZero) (hnonzero : σ.At .home onNonzero) :
    σ.Safe (branchOnZero entry onZero onNonzero) := by
  refine (fresh_keeps .home).bind fun condition σ₁ he₁ hcondition => ?_
  refine (setFallback_safe (hentry.mono he₁) (hcondition.allows Symbol.plain_wildcard)).bind
    fun σ₂ he₂ => ?_
  refine addRules_safe (hcondition.mono he₂) (byteRules_allows fun v => ?_)
  refine At.allows ?_ plain_zero
  dsimp only
  split
  · exact hzero.mono (he₁.trans he₂)
  · exact hnonzero.mono (he₁.trans he₂)

/-! ## Sums, bitwise operations and shifts -/

theorem combineColumn_safe (distance : Nat) {column : Nat → Nat → Nat → Column}
    {sources : List (Nat × Nat)} {plain carry : Nat}
    (hcolumn : ∀ top lower carry, (column top lower carry).result < 256)
    (hsources : ∀ s ∈ sources, σ.At .home s.1) (hplain : σ.At .home plain)
    (hcarry : σ.At .home carry) :
    σ.Safe (combineColumn distance column sources plain carry) := by
  refine Safe.forM _ fun top _ σ₁ he₁ => Safe.forM _ fun source hsource σ₂ he₂ => ?_
  have he := he₁.trans he₂
  refine (fresh_keeps .home).bind fun split σ₃ he₃ hsplit => ?_
  refine Safe.bind (addRules_safe ((hsources source hsource).mono (he.trans he₃)) ?_)
    fun σ₄ he₄ => ?_
  · intro t ht
    obtain rfl := List.mem_singleton.1 ht
    exact hsplit.allows plain_zero
  · refine (walk_keeps .left (distance - 1) (hsplit.mono he₄)).bind fun cell σ₅ he₅ hcell => ?_
    have he' := ((he.trans he₃).trans he₄).trans he₅
    refine addRules_safe hcell (byteRules_allows fun lower => ?_)
    refine At.allows ?_ (Symbol.plain_of_byte (hcolumn _ _ _))
    dsimp only
    split
    · exact hcarry.mono he'
    · exact hplain.mono he'

theorem columns_safe (distance : Nat) {column : Nat → Nat → Nat → Column} (remaining : Nat)
    {sources : List (Nat × Nat)}
    (hcolumn : ∀ top lower carry, (column top lower carry).result < 256)
    (hsources : ∀ s ∈ sources, σ.At .home s.1) (hexit : σ.At .home exit) :
    σ.Safe (columns distance column exit remaining sources) := by
  induction remaining generalizing σ sources with
  | zero => exact .pure
  | succ remaining ih =>
    cases remaining with
    | zero => exact combineColumn_safe distance hcolumn hsources hexit hexit
    | succ remaining =>
      refine (fresh_keeps .home).bind fun plain σ₁ he₁ hplain => ?_
      refine (fresh_keeps .home).bind fun carry σ₂ he₂ hcarry => ?_
      have hplain₂ := hplain.mono he₂
      refine (combineColumn_safe distance hcolumn (fun s hs => (hsources s hs).mono
        (he₁.trans he₂)) hplain₂ hcarry).bind fun σ₃ he₃ => ?_
      refine (walk_keeps .right distance (hplain₂.mono he₃)).bind fun plain' σ₄ he₄ hplain' => ?_
      refine (walk_keeps .right distance (hcarry.mono (he₃.trans he₄))).bind
        fun carry' σ₅ he₅ hcarry' => ?_
      refine ih (fun s hs => ?_) (hexit.mono ((((he₁.trans he₂).trans he₃).trans he₄).trans he₅))
      rcases List.mem_cons.1 hs with rfl | hs
      · exact hplain'.mono he₅
      · obtain rfl := List.mem_singleton.1 hs
        exact hcarry'

theorem carryChain_safe (w : Width) {column : Nat → Nat → Nat → Column}
    (hcolumn : ∀ top lower carry, (column top lower carry).result < 256)
    (hentry : σ.At .home entry) (hexit : σ.At .home exit) :
    σ.Safe (carryChain w column entry exit) := by
  refine (walk_keeps .left w.bytes hentry).bind fun lowest σ₁ he₁ hlowest => ?_
  refine columns_safe w.bytes w.bytes hcolumn (fun s hs => ?_) (hexit.mono he₁)
  obtain rfl := List.mem_singleton.1 hs
  exact hlowest

theorem bitColumns_keeps (w : Width) {op : Nat → Nat → Nat} (remaining : Nat) {s : Nat}
    (hop : ∀ a b : Fin 256, op a b < 256) (hs : σ.At .home s) (hexit : σ.At .home exit) :
    σ.Keeps (bitColumns w op exit remaining s) fun last τ => τ.At .home last := by
  induction remaining generalizing σ s with
  | zero => exact .pure hs
  | succ remaining ih =>
    unfold bitColumns
    extract_lets rest
    have hrest : ∀ merge τ, σ.Extends τ → τ.At .home merge →
        τ.Keeps (rest merge) fun last υ => υ.At .home last := by
      intro merge σ₁ he₁ hmerge
      refine Safe.bind (branch_safe (hs.mono he₁) fun top σ₂ he₂ => ?_) fun σ₂ he₂ => ?_
      · refine (fresh_keeps .home).bind fun split σ₃ he₃ hsplit => ?_
        refine (walk_keeps .left (w.bytes - 1) hsplit).bind fun cell σ₄ he₄ hcell => ?_
        refine Safe.bind (addRules_safe hcell (byteRules_allows fun lower => ?_))
          fun σ₅ he₅ => .pure ?_
        · exact (hmerge.mono ((he₂.trans he₃).trans he₄)).allows
            (Symbol.plain_of_byte (hop top lower))
        · exact (hsplit.mono (he₄.trans he₅)).allows plain_zero
      · refine (walk_keeps .right (w.bytes - 2) (hmerge.mono he₂)).bind
          fun next σ₃ he₃ hnext => ?_
        exact ih hnext (hexit.mono ((he₁.trans he₂).trans he₃))
    split
    · exact (Keeps.pure hexit).bind hrest
    · exact (fresh_keeps .home).bind hrest

theorem bitwise_safe (w : Width) {op : Nat → Nat → Nat} (hop : ∀ a b : Fin 256, op a b < 256)
    (hentry : σ.At .home entry) (hexit : σ.At .home exit) : σ.Safe (bitwise w op entry exit) := by
  refine (fresh_keeps .home).bind fun top σ₁ he₁ htop => ?_
  refine (setFallback_safe (hentry.mono he₁) (htop.allows Symbol.plain_wildcard)).bind
    fun σ₂ he₂ => ?_
  have hexit₂ := hexit.mono (he₁.trans he₂)
  refine (bitColumns_keeps w w.bytes hop (htop.mono he₂) hexit₂).bind fun last σ₃ he₃ hlast => ?_
  split
  · exact setFallback_safe hlast ((hexit₂.mono he₃).allows Symbol.plain_wildcard)
  · exact Safe.pure

theorem binary_safe (op : BinOp) (w : Width) (hentry : σ.At .home entry)
    (hexit : σ.At .home exit) : σ.Safe (binary op w entry exit) := by
  cases op with
  | add => exact carryChain_safe w (fun _ _ _ => Nat.mod_lt _ (by decide)) hentry hexit
  | sub => exact carryChain_safe w (fun _ _ _ => Nat.mod_lt _ (by decide)) hentry hexit
  | and => exact bitwise_safe w (fun _ b => Nat.and_lt_two_pow (n := 8) _ b.isLt) hentry hexit
  | or => exact bitwise_safe w (fun a b => Nat.or_lt_two_pow (n := 8) a.isLt b.isLt) hentry hexit
  | xor => exact bitwise_safe w (fun a b => Nat.xor_lt_two_pow (n := 8) a.isLt b.isLt) hentry hexit

theorem plain_shiftByte (amount below v : Nat) : Symbol.Plain (shiftByte amount below v) :=
  Symbol.plain_of_byte (shiftByte_lt amount below v)

theorem shiftColumns_safe (amount remaining : Nat) {carried : Block 256}
    (hexit : σ.At .home exit) (hcarried : ∀ b, b < 256 → σ.At .home (carried.first + b)) :
    σ.Safe (shiftColumns amount exit remaining carried) := by
  induction remaining generalizing σ carried with
  | zero =>
    refine Safe.forM _ fun below _ σ₁ he₁ => ?_
    refine addRules_safe ((hcarried below below.isLt).mono he₁) (byteRules_allows fun v => ?_)
    exact (hexit.mono he₁).allows (plain_shiftByte amount below v)
  | succ remaining ih =>
    refine (freshBlock_keeps 256 .home).bind fun next σ₁ he₁ hnext => ?_
    refine Safe.bind (Safe.forM _ fun below _ σ₂ he₂ => ?_) fun σ₂ he₂ => ?_
    · refine addRules_safe ((hcarried below below.isLt).mono (he₁.trans he₂))
        (byteRules_allows fun v => ?_)
      exact ((hnext v v.isLt).mono he₂).allows (plain_shiftByte amount below v)
    · exact ih (hexit.mono (he₁.trans he₂)) fun b hb => (hnext b hb).mono he₂

theorem indexShift_safe (amount : Nat) (hentry : σ.At .home entry) (hexit : σ.At .home exit) :
    σ.Safe (indexShift amount entry exit) := by
  refine (walk_keeps .left 4 hentry).bind fun lowest σ₁ he₁ hlowest => ?_
  refine (freshBlock_keeps 256 .home).bind fun carried σ₂ he₂ hcarried => ?_
  refine Safe.bind (addRules_safe (hlowest.mono he₂) (byteRules_allows fun v => ?_))
    fun σ₃ he₃ => ?_
  · exact (hcarried v v.isLt).allows (Symbol.plain_of_byte (Nat.mod_lt _ (by decide)))
  · exact shiftColumns_safe amount 2 (hexit.mono ((he₁.trans he₂).trans he₃)) fun b hb =>
      (hcarried b hb).mono he₃

/-! ## Accesses away from the end of the stack -/

/-- The transition that finds the marker of a frame. -/
theorem allows_marker {marker found : Nat} (move : Direction)
    (hmarker : marker ≠ Symbol.bookmark) (hfound : σ.At .away found) :
    σ.Allows .away ⟨marker, marker, move, found⟩ :=
  .of_at (.keeping rfl hmarker fun _ => rfl) hfound

/-- The transition that finds the bookmark. -/
theorem allows_return {output : Nat} (move : Direction) (hout : output < Symbol.bookmark)
    (hexit : σ.At .home exit) : σ.Allows .away ⟨Symbol.bookmark, output, move, exit⟩ :=
  .of_at (.returning rfl hout) hexit

theorem lt_bookmark (b : Fin 256) : b.val < Symbol.bookmark := Nat.lt_trans b.isLt (by decide)

theorem fetchByte_safe {marker : Nat} (hmarker : marker ≠ Symbol.bookmark) (distance : Nat)
    (hentry : σ.At .home entry) (hexit : σ.At .home exit) :
    σ.Safe (fetchByte marker distance entry exit) := by
  refine (fresh_keeps .away).bind fun seek σ₁ he₁ hseek => ?_
  refine (setFallback_safe (hentry.mono he₁) (.of_at (.departing rfl) hseek)).bind
    fun σ₂ he₂ => ?_
  refine (fresh_keeps .away).bind fun found σ₃ he₃ hfound => ?_
  refine (scan_safe .left (hseek.mono (he₂.trans he₃))
    (allows_marker .right hmarker hfound)).bind fun σ₄ he₄ => ?_
  refine (walk_keeps .right distance (hfound.mono he₄)).bind fun cell σ₅ he₅ hcell => ?_
  have hexit₅ := hexit.mono ((((he₁.trans he₂).trans he₃).trans he₄).trans he₅)
  refine branch_safe hcell fun v σ₆ he₆ => ?_
  refine (fresh_keeps .away).bind fun carry σ₇ he₇ hcarry => ?_
  refine (scan_safe .right hcarry (allows_return .right (lt_bookmark v)
    (hexit₅.mono (he₆.trans he₇)))).bind fun σ₈ he₈ => .pure ?_
  exact (hcarry.mono he₈).allows (plain_val v)

theorem deliverByte_safe {marker : Nat} (hmarker : marker ≠ Symbol.bookmark) (move : Direction)
    (distance : Nat) (hentry : σ.At .home entry) (hexit : σ.At .home exit) :
    σ.Safe (deliverByte marker move distance entry exit) := by
  refine (fresh_keeps .home).bind fun top σ₁ he₁ htop => ?_
  refine (setFallback_safe (hentry.mono he₁) (htop.allows plain_zero)).bind fun σ₂ he₂ => ?_
  refine (fresh_keeps .away).bind fun back σ₃ he₃ hback => ?_
  refine Safe.bind (branch_safe (htop.mono (he₂.trans he₃)) fun v σ₄ he₄ => ?_) fun σ₄ he₄ => ?_
  · refine (fresh_keeps .away).bind fun seek σ₅ he₅ hseek => ?_
    refine (fresh_keeps .away).bind fun found σ₆ he₆ hfound => ?_
    refine (scan_safe .left (hseek.mono he₆) (allows_marker move hmarker hfound)).bind
      fun σ₇ he₇ => ?_
    refine (walk_keeps move distance (hfound.mono he₇)).bind fun cell σ₈ he₈ hcell => ?_
    have hback₈ := hback.mono ((((he₄.trans he₅).trans he₆).trans he₇).trans he₈)
    refine (setFallback_safe hcell (hback₈.allows (plain_val v))).bind fun σ₉ he₉ => .pure ?_
    exact .of_at (.departing rfl) (hseek.mono (((he₆.trans he₇).trans he₈).trans he₉))
  · have hexit₄ := hexit.mono (((he₁.trans he₂).trans he₃).trans he₄)
    exact scan_safe .right (hback.mono he₄) (allows_return .stay (by decide) hexit₄)

theorem load_safe (w : Width) {marker : Nat} (hmarker : marker ≠ Symbol.bookmark) (offset : Nat)
    (hentry : σ.At .home entry) (hexit : σ.At .home exit) :
    σ.Safe (load w marker offset entry exit) :=
  chain_safe w.bytes hentry hexit fun i _ _ _ _ hs hn => fetchByte_safe hmarker (offset + i) hs hn

theorem store_safe (w : Width) {marker : Nat} (hmarker : marker ≠ Symbol.bookmark) (offset : Nat)
    (hentry : σ.At .home entry) (hexit : σ.At .home exit) :
    σ.Safe (store w marker offset entry exit) :=
  chain_safe w.bytes hentry hexit fun _ _ _ _ _ hs hn => deliverByte_safe hmarker .right _ hs hn

theorem setReturn_safe (w : Width) (hentry : σ.At .home entry) (hexit : σ.At .home exit) :
    σ.Safe (setReturn w entry exit) :=
  chain_safe w.bytes hentry hexit fun i _ _ _ _ hs hn =>
    deliverByte_safe (by decide) .left (2 + i) hs hn

/-- The transitions that move the cells above the argument marker up. -/
theorem moveUp_allows {carried : Block 256} {below : Nat} (hbelow : below < Symbol.bookmark)
    (hcarried : ∀ b, b < 256 → σ.At .away (carried.first + b)) (hexit : σ.At .home exit) :
    ∀ t ∈ insertByte.moveUp exit carried below, σ.Allows .away t := by
  intro t ht
  rcases List.mem_append.1 ht with ht | ht
  · refine byteRules_allows (fun v => ?_) t ht
    exact (hcarried v v.isLt).allows (Symbol.plain_of_lt hbelow)
  · obtain rfl := List.mem_singleton.1 ht
    exact allows_return .right hbelow hexit

theorem insertByte_safe {inserted : Nat} (hinserted : inserted < 256) (hentry : σ.At .home entry)
    (hexit : σ.At .home exit) : σ.Safe (insertByte inserted entry exit) := by
  refine (fresh_keeps .away).bind fun seek σ₁ he₁ hseek => ?_
  refine (setFallback_safe (hentry.mono he₁) (.of_at (.departing rfl) hseek)).bind
    fun σ₂ he₂ => ?_
  refine (fresh_keeps .away).bind fun shift σ₃ he₃ hshift => ?_
  refine (scan_safe .left (hseek.mono (he₂.trans he₃))
    (hshift.allows (Symbol.plain_of_byte hinserted))).bind fun σ₄ he₄ => ?_
  refine (freshBlock_keeps 256 .away).bind fun carried σ₅ he₅ hcarried => ?_
  have hexit₅ := hexit.mono ((((he₁.trans he₂).trans he₃).trans he₄).trans he₅)
  refine Safe.bind (addRules_safe (hshift.mono (he₄.trans he₅))
    (moveUp_allows (by decide) hcarried hexit₅)) fun σ₆ he₆ => Safe.forM _ fun below _ σ₇ he₇ => ?_
  have hcarried₇ := fun b hb => (hcarried b hb).mono (he₆.trans he₇)
  exact addRules_safe (hcarried₇ below below.isLt)
    (moveUp_allows (lt_bookmark below) hcarried₇ (hexit₅.mono (he₆.trans he₇)))

theorem call_safe (id : Nat) {target : Nat} (hentry : σ.At .home entry)
    (htarget : σ.At .home target) : σ.Safe (call id entry target) :=
  chain_safe 2 hentry htarget fun _ _ _ _ _ hs hn =>
    insertByte_safe (Nat.mod_lt _ (by decide)) hs hn

/-! ## Indices and returns -/

theorem childRules_allows {n : Nat} (move : Direction) {children : Block n} (node : Nat)
    (h : ∀ i, i < n → σ.At .home (children.first + i)) :
    ∀ t ∈ childRules move children node, σ.Allows .home t := by
  intro t ht
  obtain ⟨v, -, hv⟩ := List.mem_filterMap.1 ht
  split at hv
  · next hlt =>
    cases hv
    exact (h _ hlt).allows plain_zero
  · cases hv

theorem joinLevels_safe {m n : Nat} (move : Direction) {parents : Block m} {children : Block n}
    (hparents : ∀ i, i < m → σ.At .home (parents.first + i))
    (hchildren : ∀ i, i < n → σ.At .home (children.first + i)) :
    σ.Safe (joinLevels move parents children) :=
  Safe.forM _ fun node _ _ he => addRules_safe ((hparents node node.isLt).mono he)
    (childRules_allows move node fun i hi => (hchildren i hi).mono he)

theorem popIndex_keeps (bound : Nat) (hentry : σ.At .home entry) :
    σ.Keeps (popIndex bound entry) fun leaves τ =>
      ∀ i, i < bound → τ.At .home (leaves.first + i) := by
  refine (fresh_keeps .home).bind fun top σ₁ he₁ htop => ?_
  refine (setFallback_safe (hentry.mono he₁) (htop.allows plain_zero)).bind fun σ₂ he₂ => ?_
  refine (freshBlock_keeps _ .home).bind fun level3 σ₃ he₃ h3 => ?_
  refine (freshBlock_keeps _ .home).bind fun level2 σ₄ he₄ h2 => ?_
  refine (freshBlock_keeps _ .home).bind fun level1 σ₅ he₅ h1 => ?_
  refine (freshBlock_keeps _ .home).bind fun leaves σ₆ he₆ h0 => ?_
  -- from here on nothing is handed out any more
  have h1₆ := fun i hi => (h1 i hi).mono he₆
  have h2₆ := fun i hi => (h2 i hi).mono (he₅.trans he₆)
  have h3₆ := fun i hi => (h3 i hi).mono ((he₄.trans he₅).trans he₆)
  have htop₆ := htop.mono ((((he₂.trans he₃).trans he₄).trans he₅).trans he₆)
  refine (addRules_safe htop₆ (childRules_allows .left 0 h3₆)).bind fun σ₇ he₇ => ?_
  refine (joinLevels_safe .left (fun i hi => (h3₆ i hi).mono he₇)
    fun i hi => (h2₆ i hi).mono he₇).bind fun σ₈ he₈ => ?_
  have he' := he₇.trans he₈
  refine (joinLevels_safe .left (fun i hi => (h2₆ i hi).mono he')
    fun i hi => (h1₆ i hi).mono he').bind fun σ₉ he₉ => ?_
  have he'' := he'.trans he₉
  refine (joinLevels_safe .stay (fun i hi => (h1₆ i hi).mono he'')
    fun i hi => (h0 i hi).mono he'').bind fun σ' he => .pure ?_
  exact fun i hi => (h0 i hi).mono (he''.trans he)

theorem indirect_safe {bound : Nat} {access : Nat → Nat → DraftM Unit}
    (hentry : σ.At .home entry)
    (haccess : ∀ index s τ, σ.Extends τ → τ.At .home s → τ.Safe (access index s)) :
    σ.Safe (indirect bound access entry) := by
  refine (popIndex_keeps bound hentry).bind fun leaves σ₁ he₁ hleaves => ?_
  refine Safe.forM _ fun index _ σ₂ he₂ => ?_
  exact haccess index _ σ₂ (he₁.trans he₂) ((hleaves index index.isLt).mono he₂)

theorem returnPage_safe {high : Nat} (sites : CallSites) (page : Nat)
    (hhigh : σ.At .home high) : σ.Safe (returnPage high sites page) := by
  refine (fresh_keeps .home).bind fun low σ₁ he₁ hlow => ?_
  refine Safe.bind (addRules_safe (hhigh.mono he₁) fun t ht => ?_) fun σ₂ he₂ => ?_
  · obtain rfl := List.mem_singleton.1 ht
    exact hlow.allows plain_zero
  · refine Keeps.bind (Keeps.mapM _ fun v _ σ₃ he₃ => ?_) fun rules σ₃ he₃ hrules =>
      addRules_safe (hlow.mono (he₂.trans he₃)) hrules
    refine (answer_keeps _).bind fun address σ₄ _ _ => ?_
    exact (entryAt_keeps address).bind fun id σ₅ _ hid => .pure (hid.allows plain_zero)

theorem ret_safe (sites : CallSites) (hentry : σ.At .home entry) : σ.Safe (ret sites entry) := by
  refine (fresh_keeps .home).bind fun high σ₁ he₁ hhigh => ?_
  have hentry₁ := hentry.mono he₁
  refine (setFallback_safe hentry₁ (hentry₁.allows plain_zero)).bind fun σ₂ he₂ => ?_
  refine Safe.bind (addRules_safe (hentry₁.mono he₂) fun t ht => ?_) fun σ₃ he₃ => ?_
  · obtain rfl := List.mem_singleton.1 ht
    exact (hhigh.mono he₂).allows plain_zero
  · split
    · exact Safe.forM _ fun page _ σ₄ he₄ =>
        returnPage_safe sites page (hhigh.mono ((he₂.trans he₃).trans he₄))
    · exact Safe.pure

end Gadget

/-! ## Instructions -/

namespace Phased

variable {σ : Phased}

theorem emit_safe (sites : CallSites) (position : Nat) (i : Instruction) :
    σ.Safe (Draft.emit sites position i) := by
  refine (entryAt_keeps position).bind fun entry σ₁ _ hentry => ?_
  have hgoto : ∀ {x : Nat → DraftM Unit} (q : Nat),
      (∀ next τ, σ₁.Extends τ → τ.At .home next → τ.At .home entry → τ.Safe (x next)) →
        σ₁.Safe (do x (← Draft.entryAt q)) := fun q hx =>
    (entryAt_keeps q).bind fun next τ he hn => hx next τ he hn (hentry.mono he)
  obtain ⟨opcode, operand1, operand2, target⟩ := i
  have hmarker : ∀ f : Frame, f.marker ≠ Symbol.bookmark := by
    intro f
    cases f <;> decide
  cases opcode with
  | push w => exact hgoto _ fun _ _ _ hn hs => Gadget.push_safe w operand1 hs hn
  | pop w => exact hgoto _ fun _ _ _ hn hs => Gadget.pop_safe w hs hn
  | dup w => exact hgoto _ fun _ _ _ hn hs => Gadget.dup_safe w hs hn
  | swap w => exact hgoto _ fun _ _ _ hn hs => Gadget.swap_safe w operand1 hs hn
  | enter => exact hgoto _ fun _ _ _ hn hs => Gadget.enter_safe hs hn
  | alloc => exact hgoto _ fun _ _ _ hn hs => Gadget.alloc_safe operand1 hs hn
  | free => exact hgoto _ fun _ _ _ hn hs => Gadget.free_safe operand1 hs hn
  | load f w => exact hgoto _ fun _ _ _ hn hs => Gadget.load_safe w (hmarker f) operand1 hs hn
  | loadIndirect f w =>
    exact hgoto _ fun _ _ _ hn hs => Gadget.indirect_safe hs fun index _ _ he hs' =>
      Gadget.load_safe w (hmarker f) (operand1 + index) hs' (hn.mono he)
  | store f w => exact hgoto _ fun _ _ _ hn hs => Gadget.store_safe w (hmarker f) operand1 hs hn
  | storeIndirect f w =>
    exact hgoto _ fun _ _ _ hn hs => Gadget.indirect_safe hs fun index _ _ he hs' =>
      Gadget.store_safe w (hmarker f) (operand1 + index) hs' (hn.mono he)
  | makeArgs => exact hgoto _ fun _ _ _ hn hs => Gadget.makeArgs_safe operand1 hs hn
  | binary op w => exact hgoto _ fun _ _ _ hn hs => Gadget.binary_safe op w hs hn
  | indexShift => exact hgoto _ fun _ _ _ hn hs => Gadget.indexShift_safe operand1 hs hn
  | setReturn w => exact hgoto _ fun _ _ _ hn hs => Gadget.setReturn_safe w hs hn
  | jump =>
    exact hgoto _ fun _ _ _ hn hs => Gadget.jump_safe hs (hn.allows Symbol.plain_wildcard)
  | call => exact hgoto _ fun _ _ _ hn hs => Gadget.call_safe _ hs hn
  | jumpIfZero =>
    exact hgoto _ fun _ _ _ hn hs => (entryAt_keeps _).bind fun _ _ he ht =>
      Gadget.branchOnZero_safe (hs.mono he) ht (hn.mono he)
  | jumpIfNonzero =>
    exact hgoto _ fun _ _ _ hn hs => (entryAt_keeps _).bind fun _ _ he ht =>
      Gadget.branchOnZero_safe (hs.mono he) (hn.mono he) ht
  | ret => exact Gadget.ret_safe sites hentry
  | accept => exact Gadget.jump_safe hentry (σ₁.accept_at.allows Symbol.plain_wildcard)
  | reject => exact Gadget.jump_safe hentry (σ₁.allows_unwired .home)

theorem emitFrom_safe (sites : CallSites) (position : Nat) (p : Program) :
    σ.Safe (Draft.emitFrom sites position p) := by
  induction p generalizing σ position with
  | nil => exact .pure
  | cons i rest ih =>
    refine (emit_safe sites position i).bind fun τ _ => ?_
    exact (record_safe i.opcode).bind fun υ _ => ih (position + 1)

end Phased

end StackTape
