import SysX.StringCompare
import Mathlib.Data.List.Forall2

/-! The command line of the kernel (`kernel/cmdline.c`), whose copy and whose vector find memory. -/
namespace SysX

/-- `' '` -/
def space : UInt8 := 32
/-- `'='` -/
def equals : UInt8 := 61

/-- `kernel_cmdline`, and the offsets in it of the elements of `kernel_argv`. -/
structure Cmdline where
  cmdline : ℕ → UInt8
  argv : List ℕ

/-- `kernel_argc` -/
def Cmdline.argc (c : Cmdline) : ℕ := c.argv.length

/-- The loop of `cmdline_init`, over the `n` values of `end` that are left. -/
def cmdlineTokenize (len : ℕ) : (n last start : ℕ) → Cmdline → Cmdline
  | 0, _, _, c => c
  | n + 1, last, start, c =>
    if start < len then
      if c.cmdline last = space ∨ c.cmdline last = 0 then
        if last - start ≤ 1 then cmdlineTokenize len n (last + 1) (last + 1) c
        else
          cmdlineTokenize len n (last + 1) (last + 1)
            { cmdline := Function.update c.cmdline last 0, argv := c.argv ++ [start] }
      else cmdlineTokenize len n (last + 1) start c
    else c

/-- `cmdline_init` -/
def cmdlineInit (str : Str) (c : Cmdline) : Cmdline :=
  let len := str.length
  if len = 0 then c else cmdlineTokenize len len 1 0 { c with cmdline := fun i => str.getD i 0 }

/-- `cmdline_find_flag` -/
def cmdlineFindFlag (c : Cmdline) (key : Str) : Bool := c.argv.any fun k => strcmp c.cmdline k key = 0

/-- `cmdline_find_kvp`, with the offset of the value. -/
def cmdlineFindKvp (c : Cmdline) (key : Str) : Option ℕ :=
  (c.argv.find? fun k => strncmp c.cmdline k key key.length = 0 ∧ c.cmdline (k + key.length) = equals).map
    (· + key.length + 1)

/-- The variables of the kernel before the command line is parsed. -/
def cmdlineStart : Cmdline := ⟨fun _ => 0, []⟩

/-! What the command line says. -/

/-- The tokens between the spaces. -/
def tokens (str : Str) : List Str := components space str

/-- The value of a token that gives one to the key. -/
def valueOf (key token : Str) : Option Str :=
  if key ++ [equals] <+: token then some (token.drop (key.length + 1)) else none

/-- The vector holds the tokens of the command line, and both searches find in them what there is to be found. -/
structure CmdlineParsed (str : Str) (c : Cmdline) : Prop where
  argv : List.Forall₂ (Spells c.cmdline) c.argv (tokens str)
  flag : ∀ key, 0 ∉ key → (cmdlineFindFlag c key = true ↔ key ∈ tokens str)
  kvp : ∀ key, 0 ∉ key →
    Option.Rel (Spells c.cmdline) (cmdlineFindKvp c key) ((tokens str).findSome? (valueOf key))

/-- No token has a single character, and no single space stands before the first one. -/
def CmdlineFits (str : Str) : Prop :=
  (∀ t ∈ tokens str, 2 ≤ t.length) ∧ ∀ c rest, str = space :: c :: rest → c = space

/-! What the loop cuts off. -/

/-- A token that has been passed is kept when it is long enough. -/
def cutOff (cur : Str) : List Str := if cur.length ≤ 1 then [] else [cur]

/-- The tokens that the loop makes of `cur`, which it has passed, and of the rest of the string. -/
def cuts (cur : Str) : Str → List Str
  | [] => cutOff cur
  | c :: rest => if c = space then cutOff cur ++ cuts [] rest else cuts (cur ++ [c]) rest

section Cuts

variable {cur rest : Str}

theorem tokens_of_notMem (hcur : space ∉ cur) : tokens cur = if cur = [] then [] else [cur] :=
  components_of_not_mem hcur

theorem tokens_append_space (hcur : space ∉ cur) : tokens (cur ++ space :: rest) = tokens cur ++ tokens rest := by
  rw [tokens_of_notMem hcur, tokens, components_append_cons hcur, tokens]
  split_ifs
  · rfl
  · rfl

theorem cutOff_eq_filter (hcur : space ∉ cur) : cutOff cur = (tokens cur).filter fun t => 2 ≤ t.length := by
  rw [tokens_of_notMem hcur, cutOff]
  split_ifs with hshort hnil hnil
  · rfl
  · rw [List.filter_cons_of_neg (by simpa [Nat.lt_succ_iff] using hshort), List.filter_nil]
  · rw [hnil] at hshort
    exact absurd (Nat.zero_le 1) hshort
  · rw [List.filter_cons_of_pos (by simpa [Nat.succ_le_iff] using hshort), List.filter_nil]

/-- The tokens of one character are lost. -/
theorem cuts_eq_filter (hcur : space ∉ cur) : cuts cur rest = (tokens (cur ++ rest)).filter fun t => 2 ≤ t.length := by
  induction rest generalizing cur with
  | nil => rw [cuts, List.append_nil, cutOff_eq_filter hcur]
  | cons c rest ih =>
    rw [cuts]
    split_ifs with hspace
    · rw [hspace, tokens_append_space hcur, List.filter_append, cutOff_eq_filter hcur, ih List.not_mem_nil, List.nil_append]
    · have hnext : space ∉ cur ++ [c] := by
        simp only [List.mem_append, List.mem_singleton, not_or]
        exact ⟨hcur, fun h => hspace h.symm⟩
      rw [ih hnext, List.append_assoc, List.singleton_append]

/-- What has been passed ends up in a token once it is long enough. -/
theorem exists_mem_cuts {x : UInt8} (hx : x ∈ cur) (hlen : 2 ≤ cur.length) : ∃ t ∈ cuts cur rest, x ∈ t := by
  have hkept : cutOff cur = [cur] := if_neg (by omega)
  induction rest generalizing cur with
  | nil =>
    rw [cuts, hkept]
    exact ⟨cur, List.mem_singleton_self _, hx⟩
  | cons c rest ih =>
    rw [cuts]
    split_ifs
    · rw [hkept]
      exact ⟨cur, List.mem_cons_self, hx⟩
    · have hlonger : 2 ≤ (cur ++ [c]).length := by
        rw [List.length_append]
        omega
      exact ih (List.mem_append_left _ hx) hlonger (if_neg (by omega))

end Cuts

/-- The elements so far are the tokens `done`, all of which end before `start`. -/
structure TokensCut (str : Str) (start : ℕ) (c : Cmdline) (done : List Str) : Prop where
  argv : List.Forall₂ (fun k t => Spells c.cmdline k t ∧ k + t.length < start) c.argv done
  ahead : ∀ i, start ≤ i → c.cmdline i = str.getD i 0

section Loop

variable {str : Str} {c : Cmdline} {done : List Str}

theorem TokensCut.cut {pre cur rest : Str} (h : TokensCut str pre.length c done) (hstr : str = pre ++ (cur ++ rest))
    (hzero : 0 ∉ cur) :
    TokensCut str (pre.length + cur.length + 1)
      (if cur.length ≤ 1 then c else
        { cmdline := Function.update c.cmdline (pre.length + cur.length) 0, argv := c.argv ++ [pre.length] })
      (done ++ cutOff cur) := by
  unfold cutOff
  split_ifs with hshort
  · rw [List.append_nil]
    exact ⟨h.argv.imp fun k t ht => ⟨ht.1, by omega⟩, fun i hi => h.ahead i (by omega)⟩
  · constructor
    · apply List.rel_append
      · apply h.argv.imp
        rintro k t ⟨ht, hend⟩
        refine ⟨ht.congr fun i _ hi => Function.update_of_ne (by omega) _ _, by omega⟩
      · apply List.Forall₂.cons _ List.Forall₂.nil
        refine ⟨Spells.of_cells hzero (fun i hi => ?_) (Function.update_self _ _ _), Nat.lt_succ_self _⟩
        dsimp only
        rw [Function.update_of_ne (by omega), h.ahead _ (Nat.le_add_right _ _), hstr,
          List.getD_append_right _ _ _ _ (Nat.le_add_right _ _), Nat.add_sub_cancel_left,
          List.getD_append _ _ _ _ hi]
    · intro i hi
      dsimp only
      rw [Function.update_of_ne (by omega)]
      exact h.ahead i (by omega)

theorem TokensCut.spells {start : ℕ} (h : TokensCut str start c done) : List.Forall₂ (Spells c.cmdline) c.argv done :=
  h.argv.imp fun _ _ ht => ht.1

/-- A pass of the loop that ends a token. -/
theorem cmdlineTokenize_cut {len n last start : ℕ} (hstart : start < len) (hend : c.cmdline last = space ∨ c.cmdline last = 0) :
    cmdlineTokenize len (n + 1) last start c = cmdlineTokenize len n (last + 1) (last + 1)
      (if last - start ≤ 1 then c else
        { cmdline := Function.update c.cmdline last 0, argv := c.argv ++ [start] }) := by
  rw [cmdlineTokenize, if_pos hstart, if_pos hend]
  split_ifs
  · rfl
  · rfl

theorem cmdlineTokenize_cuts {pre cur rest : Str} (h : TokensCut str pre.length c done)
    (hstr : str = pre ++ (cur ++ rest)) (hzero : 0 ∉ str) :
    let c' := cmdlineTokenize str.length (rest.length + 1) (pre.length + cur.length) pre.length c
    List.Forall₂ (Spells c'.cmdline) c'.argv (done ++ cuts cur rest) := by
  induction rest generalizing pre cur c done with
  | nil =>
    have hcur : 0 ∉ cur := fun hmem => hzero (by simp [hstr, hmem])
    have hlen : str.length = pre.length + cur.length := by simp [hstr]
    by_cases hstart : pre.length < str.length
    · have hlast : c.cmdline (pre.length + cur.length) = 0 := by
        rw [h.ahead _ (Nat.le_add_right _ _), ← hlen, List.getD_eq_default _ _ (Nat.le_refl _)]
      have hcut := (h.cut hstr hcur).spells
      rw [List.length_nil, cmdlineTokenize_cut hstart (.inr hlast), Nat.add_sub_cancel_left, cmdlineTokenize, cuts]
      exact hcut
    · have hnil : cur = [] := List.length_eq_zero_iff.mp (by omega)
      rw [List.length_nil, cmdlineTokenize, if_neg hstart, hnil]
      simpa [cuts, cutOff] using h.spells
  | cons d rest ih =>
    have hcur : 0 ∉ cur := fun hmem => hzero (by simp [hstr, hmem])
    have hd : 0 ≠ d := fun heq => hzero (by simp [hstr, heq])
    have hlast : c.cmdline (pre.length + cur.length) = d := by
      rw [h.ahead _ (Nat.le_add_right _ _), hstr, ← List.append_assoc, ← List.length_append,
        List.getD_append_right _ _ _ _ (Nat.le_refl _), Nat.sub_self]
      rfl
    have hstart : pre.length < str.length := by
      rw [hstr, List.length_append, List.length_append, List.length_cons]
      omega
    rw [cuts, List.length_cons]
    split_ifs with hspace
    · have hcut := h.cut hstr hcur
      have hpre : pre.length + cur.length + 1 = (pre ++ (cur ++ [space])).length := by simp [Nat.add_assoc]
      rw [cmdlineTokenize_cut hstart (.inl (hlast.trans hspace)), Nat.add_sub_cancel_left, ← List.append_assoc]
      rw [hpre] at hcut ⊢
      have hrest : str = pre ++ (cur ++ [space]) ++ ([] ++ rest) := by simp [hstr, hspace]
      exact ih hcut hrest
    · have hgo : ¬(c.cmdline (pre.length + cur.length) = space ∨ c.cmdline (pre.length + cur.length) = 0) := by
        rw [hlast]
        exact fun hor => hor.elim hspace fun hz => hd hz.symm
      have hnext : pre.length + cur.length + 1 = pre.length + (cur ++ [d]).length := by simp [Nat.add_assoc]
      rw [cmdlineTokenize, if_pos hstart, if_neg hgo, hnext]
      exact ih h (by simp [hstr])

/-- The elements of the vector after `cmdline_init`. -/
theorem cmdlineInit_argv {d : UInt8} {rest : Str} (hzero : 0 ∉ d :: rest) :
    let c' := cmdlineInit (d :: rest) cmdlineStart
    List.Forall₂ (Spells c'.cmdline) c'.argv (cuts [d] rest) := by
  have hstart : TokensCut (d :: rest) ([] : Str).length { cmdlineStart with cmdline := fun i => (d :: rest).getD i 0 } [] :=
    ⟨List.Forall₂.nil, fun i _ => rfl⟩
  have hstr : d :: rest = [] ++ ([d] ++ rest) := rfl
  exact cmdlineTokenize_cuts hstart hstr hzero

end Loop

section Searches

variable {c : Cmdline} {ts : List Str} {key : Str}

theorem cmdlineFindFlag_iff (h : List.Forall₂ (Spells c.cmdline) c.argv ts) (hkey : 0 ∉ key) :
    cmdlineFindFlag c key = true ↔ key ∈ ts := by
  unfold cmdlineFindFlag
  generalize c.argv = argv at h
  induction h with
  | nil => simp
  | cons hk hrest ih =>
    rw [List.any_cons, Bool.or_eq_true, ih, List.mem_cons, decide_eq_true_eq, strcmp_eq_zero_iff hkey]
    apply or_congr_left
    constructor
    · exact fun h => h.unique hk
    · rintro rfl
      exact hk

/-- The test of one element of the vector. -/
theorem prefix_equals_iff {r : ℕ → UInt8} {k : ℕ} {t : Str} (h : Spells r k t) (hkey : 0 ∉ key) :
    strncmp r k key key.length = 0 ∧ r (k + key.length) = equals ↔ key ++ [equals] <+: t := by
  rw [strncmp_prefix_iff h hkey (Nat.le_refl _), List.take_length]
  constructor
  · rintro ⟨⟨rest, rfl⟩, hequals⟩
    rw [h.get (by simp), List.getD_append_right _ _ _ _ (Nat.le_refl _), Nat.sub_self] at hequals
    cases rest with
    | nil => cases hequals
    | cons c rest =>
      obtain rfl : c = equals := hequals
      exact ⟨rest, by simp⟩
  · rintro ⟨rest, rfl⟩
    refine ⟨⟨equals :: rest, by simp⟩, ?_⟩
    rw [h.get (by simp), List.append_assoc, List.getD_append_right _ _ _ _ (Nat.le_refl _), Nat.sub_self]
    rfl

theorem cmdlineFindKvp_rel (h : List.Forall₂ (Spells c.cmdline) c.argv ts) (hkey : 0 ∉ key) :
    Option.Rel (Spells c.cmdline) (cmdlineFindKvp c key) (ts.findSome? (valueOf key)) := by
  unfold cmdlineFindKvp
  generalize c.argv = argv at h
  induction h with
  | nil => exact Option.Rel.none
  | @cons k t argv ts hk hrest ih =>
    have htest := prefix_equals_iff hk hkey
    rw [List.find?_cons, List.findSome?_cons, valueOf]
    by_cases hmatch : key ++ [equals] <+: t
    · rw [decide_eq_true (htest.mpr hmatch), if_pos hmatch]
      obtain ⟨rest, rfl⟩ := hmatch
      have hlen : key.length + 1 = (key ++ [equals]).length := by simp
      have hvalue := hk.drop
      rw [← hlen, ← Nat.add_assoc] at hvalue
      rw [hlen, List.drop_left]
      exact Option.Rel.some hvalue
    · rw [decide_eq_false (fun h => hmatch (htest.mp h)), if_neg hmatch]
      exact ih

end Searches

theorem CmdlineParsed.of_argv {str : Str} {c : Cmdline} (h : List.Forall₂ (Spells c.cmdline) c.argv (tokens str)) :
    CmdlineParsed str c :=
  ⟨h, fun _ hkey => cmdlineFindFlag_iff h hkey, fun _ hkey => cmdlineFindKvp_rel h hkey⟩

/-- What the loop makes of the string are its tokens. -/
theorem cuts_eq_tokens_iff {d : UInt8} {rest : Str} :
    cuts [d] rest = tokens (d :: rest) ↔ CmdlineFits (d :: rest) := by
  have hlong (ts : List Str) : (ts.filter fun t => 2 ≤ t.length) = ts ↔ ∀ t ∈ ts, 2 ≤ t.length := by
    simp [List.filter_eq_self]
  by_cases hd : d = space
  · subst hd
    cases rest with
    | nil => exact ⟨fun _ => ⟨fun t ht => (List.not_mem_nil ht).elim, fun c rest hnil => nomatch hnil⟩, fun _ => rfl⟩
    | cons c rest =>
      by_cases hc : c = space
      · subst hc
        have hcuts : cuts [space] (space :: rest) = cuts [] rest := rfl
        have htokens : tokens (space :: space :: rest) = tokens rest := by
          have hnil : space ∉ ([] : Str) := List.not_mem_nil
          have hempty (p : Str) : tokens (space :: p) = tokens p := tokens_append_space hnil
          rw [hempty, hempty]
        rw [hcuts, cuts_eq_filter List.not_mem_nil, List.nil_append, CmdlineFits, htokens, hlong]
        simp
      · have hglued : cuts [space] (c :: rest) = cuts [space, c] rest := if_neg hc
        rw [hglued]
        constructor
        · intro heq
          have hmem : space ∈ [space, c] := List.mem_cons_self
          obtain ⟨t, ht, hspace⟩ : ∃ t ∈ cuts [space, c] rest, space ∈ t := exists_mem_cuts hmem (Nat.le_refl 2)
          rw [heq] at ht
          exact absurd hspace (notMem_of_mem_components ht)
        · intro h
          exact absurd (h.2 c rest rfl) hc
  · have hcur : space ∉ [d] := fun hmem => hd (List.mem_singleton.mp hmem).symm
    rw [cuts_eq_filter hcur, List.singleton_append, hlong]
    exact ⟨fun h => ⟨h, fun c rest hsame => absurd (List.cons.inj hsame).1 hd⟩, fun h => h.1⟩

/-- The vector is what the command line says exactly where no token is short and no space glued to the first one. -/
theorem cmdline_init_iff (str : Str) (hzero : 0 ∉ str) : CmdlineParsed str (cmdlineInit str cmdlineStart) ↔ CmdlineFits str := by
  cases str with
  | nil =>
    have hempty : CmdlineParsed [] (cmdlineInit [] cmdlineStart) := CmdlineParsed.of_argv List.Forall₂.nil
    exact ⟨fun _ => ⟨fun t ht => (List.not_mem_nil ht).elim, fun c rest hnil => nomatch hnil⟩, fun _ => hempty⟩
  | cons d rest =>
    have hargv := cmdlineInit_argv hzero
    rw [← cuts_eq_tokens_iff]
    constructor
    · intro h
      exact List.right_unique_forall₂' (fun _ _ _ ht ht' => ht.unique ht') hargv h.argv
    · intro h
      rw [h] at hargv
      exact CmdlineParsed.of_argv hargv

/-- `a b`, whose tokens are both lost. -/
def cmdlineSample : Str := [97, 32, 98]

theorem cmdline_init_sample : CmdlineParsed cmdlineSample (cmdlineInit cmdlineSample cmdlineStart) ↔ CmdlineFits cmdlineSample :=
  cmdline_init_iff cmdlineSample (by decide)

theorem cmdline_init_drops : ¬∀ str, 0 ∉ str → CmdlineParsed str (cmdlineInit str cmdlineStart) := by
  intro h
  have hflag := (h cmdlineSample (by decide)).flag [97] (by decide)
  have hmissed : cmdlineFindFlag (cmdlineInit cmdlineSample cmdlineStart) [97] = false := by decide
  have htoken : [97] ∈ tokens cmdlineSample := by decide
  rw [hmissed] at hflag
  exact absurd (hflag.mpr htoken) Bool.false_ne_true

end SysX
