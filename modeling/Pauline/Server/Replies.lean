import Pauline.Server.Printing
import Pauline.Server.DriveConfig

/-!
# The replies

Each command prints what it does. Some replies repeat a parameter or the whole
line, and are as long as these.
-/

set_option autoImplicit false

namespace Pauline.Replies
open Pauline.CommandLine Pauline.DumpForm Pauline.DriveConfig Pauline.Messages Pauline.Printing

/-! ## Formats -/

def decimal (n : BitVec 32) : Text := decimalText 1 n.toInt

inductive Piece where
  | lit (text : String)
  | str (text : Text)
  | num (n : BitVec 32)

def Piece.print : Piece → Text
  | .lit text => text.toList
  | .str text => text
  | .num n => decimal n

structure Reply where
  type : MsgType
  format : List Piece

def Reply.text (r : Reply) : Text := r.format.flatMap Piece.print

/-! ## The commands -/

structure Env where
  dump_running : Bool
  dump_drive : BitVec 32
  drive_current_head_position : BitVec 32 → BitVec 32
  drive_max_steps : BitVec 32 → BitVec 32
  hxcfe_getEnvVar : Text → Option Text
  /-- Names and values by index. -/
  hxcfe_getEnvVarIndex : List (Text × Text)
  hxcfe_execScriptFile : BitVec 32
  floppy_head_recalibrate : BitVec 32 → BitVec 32
  getio : Text → BitVec 32
  pthread_create : BitVec 32
  system : Text → BitVec 32
  /-- What the stack held of `temp2` in `cmd_set_motor_src`. -/
  temp2 : Text
  /-- The argument that the format of `cmd_movehead` has too many. -/
  cur_pos : BitVec 32
  /-- The date and time of the compiler. -/
  buildtime : {text : Text // text.length = 20 ∧ '\n' ∉ text}

def given (n : ℕ) (line : Text) : Bool := (List.range n).all fun k => (getParam line (k+1)).isSome

def param (line : Text) (k : ℕ) : Text := (getParam line k).getD []

def arg (line : Text) (k : ℕ) : BitVec 32 := int (param line k)

def badParameters (line : Text) : List Reply :=
  [⟨.error,[.lit "Bad/Missing parameter(s) ! : ",.str line,.lit "\n"]⟩]

def busError : List Reply := [⟨.error,[.lit "Floppy bus busy\n"]⟩]

def maxStepWarning (steps : BitVec 32) : List Reply :=
  [⟨.warning,[.lit "Warning : Drive Max step : ",.num steps,.lit " !\n"]⟩]

def numbers (line : Text) (before between : String) (m n : BitVec 32) : List Reply :=
  if given 2 line then [⟨.info0,[.lit before,.num m,.lit between,.num n,.lit "\n"]⟩]
  else badParameters line

def tracks (doublestep position : BitVec 32) : ℤ :=
  if doublestep ≠ 0 then position.toInt.tdiv 2 else position.toInt

section Commands
variable (env : Env) (line : Text)

def cmdDump : List Reply :=
  if given 9 line then
    if !env.dump_running then
      if env.pthread_create ≠ 0 then
        [⟨.error,[.lit "Error ! Can't Create the thread ! (Error ",.num env.pthread_create,
          .lit ")\r\n"]⟩]
      else []
    else [⟨.error,[.lit "Error ! Dump already running !\r\n"]⟩]
  else badParameters line

def cmdStop : List Reply :=
  [⟨.info0,[.lit "Stopping current dump...\n"]⟩,⟨.info0,[.lit "Current dump stopped !\n"]⟩]

def cmdPrint : List Reply :=
  match getParamOffset line 1 with
  | some rest => [⟨.none,[.str rest,.lit "\n"]⟩]
  | none => []

def cmdSetPinMode : List Reply :=
  if given 3 line then
    [⟨.info0,[.lit "Pin ",.str (param line 2),.lit " mode set to ",.num (arg line 3),.lit "\n"]⟩]
  else badParameters line

def cmdSetEnv : List Reply :=
  if given 2 line then
    [⟨.info0,[.lit "Set ",.str (param line 1),.lit " to ",.str (param line 2),.lit "\n"]⟩]
  else badParameters line

def variableReply (var value : Text) : Reply :=
  ⟨.info0,[.str var,.lit "  = ",.str value,.lit "\n"]⟩

def cmdGetEnv : List Reply :=
  if given 1 line then
    [variableReply (param line 1) ((env.hxcfe_getEnvVar (param line 1)).getD "(null)".toList)]
  else env.hxcfe_getEnvVarIndex.map fun v => variableReply v.1 v.2

def cmdReloadConfig : List Reply :=
  if env.hxcfe_execScriptFile.toInt < 0 then
    [⟨.error,[.lit "Error while reading the default init script !\n"]⟩]
  else [⟨.info0,[.lit "Config file reloaded\n"]⟩]

def cmdHeadstep : List Reply :=
  if given 2 line then
    let drive := arg line 1
    let track := arg line 2
    let doublestep := arg line 3
    if env.dump_running && env.dump_drive != drive then busError
    else
      ⟨.info0,[.lit "Head step : ",.num track,.lit "\n"]⟩ ::
        if (env.drive_max_steps drive).toInt ≤
              tracks doublestep (env.drive_current_head_position drive) ∧ 0 < track.toInt then
          maxStepWarning (env.drive_max_steps drive)
        else []
  else badParameters line

def cmdMovehead : List Reply :=
  if given 2 line then
    let drive := arg line 1
    let track := arg line 2
    if env.dump_running && env.dump_drive != drive then busError
    else
      ⟨.info0,[.lit "Head move : ",.num track,.lit " (cur pos: ",.num env.cur_pos,.lit ")\n"]⟩ ::
        if (env.drive_max_steps drive).toInt < track.toInt then
          maxStepWarning (env.drive_max_steps drive)
        else []
  else badParameters line

def cmdReset : List Reply := [⟨.info0,[.lit "FPGA reset \n"]⟩]

def cmdRecalibrate : List Reply :=
  if given 1 line then
    let ret := env.floppy_head_recalibrate (arg line 1)
    if ret.toInt < 0 then
      [⟨.error,[.lit "Head position calibration failed ! (",.num ret,.lit ")\n"]⟩]
    else []
  else []

def cmdSetMotorSrc : List Reply :=
  numbers line "Drive " " Motor source : " (arg line 2) (int env.temp2)

def cmdSetSelectSrc : List Reply :=
  numbers line "Drive " " select source : " (arg line 1) (arg line 2)

def cmdSetLedSrc : List Reply := numbers line "LED " " signal source : " (arg line 1) (arg line 2)

def cmdSetPin02Mode : List Reply := numbers line "Drive " " pin 2 mode : " (arg line 1) (arg line 2)

def cmdSetPin34Mode : List Reply :=
  numbers line "Drive " " pin 34 mode : " (arg line 1) (arg line 2)

def cmdSetWriteprotect : List Reply :=
  numbers line "Drive " " write protect : " (arg line 1) (arg line 2)

def cmdEjectdisk : List Reply :=
  if given 1 line then [⟨.info0,[.lit "Drive ",.num (arg line 1),.lit " : eject disk\n"]⟩] else []

def cmdSetPin : List Reply :=
  if given 1 line then [⟨.info0,[.lit "set io ",.str (param line 1),.lit "\n"]⟩]
  else badParameters line

def cmdClearPin : List Reply :=
  if given 1 line then [⟨.info0,[.lit "clear io ",.str (param line 1),.lit "\n"]⟩]
  else badParameters line

def cmdGetPin : List Reply :=
  if given 1 line then
    let ret := env.getio (param line 1)
    if 0 ≤ ret.toInt then
      [⟨.info0,[.lit "io ",.str (param line 1),.lit " state : ",.num ret,.lit "\n"]⟩]
    else [⟨.error,[.lit "Can't get the io ",.str (param line 1),.lit " state ! \n"]⟩]
  else badParameters line

def cmdSetDumpTimePerTrack : List Reply :=
  if given 1 line then
    [⟨.info0,[.lit "dump_time_per_track : ",
      .num (BitVec.ofInt 32 (trackTime (intOf (param line 1)))),.lit "\n"]⟩]
  else badParameters line

def cmdSetIndexToDumpTime : List Reply :=
  if given 1 line then [⟨.info0,[.lit "index_to_dump_delay : ",.num (arg line 1),.lit "\n"]⟩]
  else badParameters line

def cmdSetImagesSettings : List Reply :=
  [⟨.info0,[.lit "cmd_set_images_settings : ",.num (arg line 1),.lit " ",.num (arg line 2),
    .lit " ",.num (arg line 3),.lit " ",.num (arg line 4),.lit " ",.num (arg line 5),.lit "\n"]⟩]

def cmdSetImagesDecoders : List Reply :=
  [⟨.info0,[.lit "cmd_set_images_settings : ",.str line,.lit "\n"]⟩]

def cmdVersion : List Reply :=
  [⟨.info0,[.lit "HxC Streamer version : ",.lit "1.4.2.1",
    .lit ", Date : 13 September 2023, Build Date : ",.str env.buildtime,.lit "\n"]⟩]

def systemCommand : Text :=
  (List.range 31).flatMap fun k =>
    if param line (k+1) = [] then [] else ' ' :: param line (k+1)

def cmdSystem : List Reply :=
  [⟨.error,[.lit "system() return : ",.num (env.system (systemCommand line)),.lit "\n"]⟩]

def cmdSound : List Reply := if given 2 line then [] else badParameters line

end Commands

inductive Command where
  | print | help | question | version
  | set_pin_dir | headstep | dump_time | index_to_dump | reset | recalibrate | dump | stop
  | movehead | ejectdisk
  | setio | cleario | getio
  | setpreviewimagesettings | setpreviewimagedecoders
  | set | get | reloadcfg
  | ledsrc
  | sound
  | system
  | fe_writeprotect | fe_motsrc | fe_selsrc | fe_pin02mode | fe_pin34mode
deriving DecidableEq

def Command.name : Command → String
  | .print => "print"
  | .help => "help"
  | .question => "?"
  | .version => "version"
  | .set_pin_dir => "set_pin_dir"
  | .headstep => "headstep"
  | .dump_time => "dump_time"
  | .index_to_dump => "index_to_dump"
  | .reset => "reset"
  | .recalibrate => "recalibrate"
  | .dump => "dump"
  | .stop => "stop"
  | .movehead => "movehead"
  | .ejectdisk => "ejectdisk"
  | .setio => "setio"
  | .cleario => "cleario"
  | .getio => "getio"
  | .setpreviewimagesettings => "setpreviewimagesettings"
  | .setpreviewimagedecoders => "setpreviewimagedecoders"
  | .set => "set"
  | .get => "get"
  | .reloadcfg => "reloadcfg"
  | .ledsrc => "ledsrc"
  | .sound => "sound"
  | .system => "system"
  | .fe_writeprotect => "fe_writeprotect"
  | .fe_motsrc => "fe_motsrc"
  | .fe_selsrc => "fe_selsrc"
  | .fe_pin02mode => "fe_pin02mode"
  | .fe_pin34mode => "fe_pin34mode"

def cmdlist : List Command :=
  [.print,.help,.question,.version,.set_pin_dir,.headstep,.dump_time,.index_to_dump,.reset,
    .recalibrate,.dump,.stop,.movehead,.ejectdisk,.setio,.cleario,.getio,
    .setpreviewimagesettings,.setpreviewimagedecoders,.set,.get,.reloadcfg,.ledsrc,.sound,.system,
    .fe_writeprotect,.fe_motsrc,.fe_selsrc,.fe_pin02mode,.fe_pin34mode]

def cmdHelp : List Reply :=
  ⟨.info0,[.lit "Supported Commands :\n\n"]⟩ ::
    cmdlist.map fun c => ⟨.none,[.lit c.name,.lit "\n"]⟩

def Command.func : Command → Env → Text → List Reply
  | .print => fun _ => cmdPrint
  | .help | .question => fun _ _ => cmdHelp
  | .version => fun env _ => cmdVersion env
  | .set_pin_dir => fun _ => cmdSetPinMode
  | .headstep => cmdHeadstep
  | .dump_time => fun _ => cmdSetDumpTimePerTrack
  | .index_to_dump => fun _ => cmdSetIndexToDumpTime
  | .reset => fun _ _ => cmdReset
  | .recalibrate => cmdRecalibrate
  | .dump => cmdDump
  | .stop => fun _ _ => cmdStop
  | .movehead => cmdMovehead
  | .ejectdisk => fun _ => cmdEjectdisk
  | .setio => fun _ => cmdSetPin
  | .cleario => fun _ => cmdClearPin
  | .getio => cmdGetPin
  | .setpreviewimagesettings => fun _ => cmdSetImagesSettings
  | .setpreviewimagedecoders => fun _ => cmdSetImagesDecoders
  | .set => fun _ => cmdSetEnv
  | .get => cmdGetEnv
  | .reloadcfg => fun env _ => cmdReloadConfig env
  | .ledsrc => fun _ => cmdSetLedSrc
  | .sound => fun _ => cmdSound
  | .system => cmdSystem
  | .fe_writeprotect => fun _ => cmdSetWriteprotect
  | .fe_motsrc => cmdSetMotorSrc
  | .fe_selsrc => fun _ => cmdSetSelectSrc
  | .fe_pin02mode => fun _ => cmdSetPin02Mode
  | .fe_pin34mode => fun _ => cmdSetPin34Mode

def command (line : Text) : Option Command :=
  cmdlist.find? fun c => c.name.toList = extractCmd line

def executeLine (env : Env) (line : Text) : List Reply :=
  if extractCmd line = [] then []
  else
    match command line with
    | some c => c.func env line
    | none => [⟨.error,[.lit "Command not found ! : ",.str line,.lit "\n"]⟩]

/-! ## Sizes -/

def size (text : Text) : ℕ := text.length + 2*text.count '\n'

theorem size_append (s t : Text) : size (s ++ t) = size s + size t := by
  rw [size, size, size, List.length_append, List.count_append]
  omega

theorem size_plain {s : Text} (h : '\n' ∉ s) : size s = s.length := by
  rw [size, List.count_eq_zero.mpr h, Nat.mul_zero, Nat.add_zero]

theorem expand_expand_length (s : Text) : (expand (expand s)).length = size s := by
  have hcount : (expand s).count '\n' = s.count '\n' := by
    induction s with
    | nil => rfl
    | cons c s ih =>
      rw [expand]
      split_ifs with hc
      · rw [hc, List.count_cons_of_ne (by decide), List.count_cons_self, List.count_cons_self, ih]
      · rw [List.count_cons_of_ne hc, List.count_cons_of_ne hc, ih]
  rw [expand_length, expand_length, hcount, size]
  omega

theorem fits_iff_size (type : MsgType) (text : Text) :
    Fits type text ↔ type.severity.length + size text < maxMessagesSize := by
  have hseverity : expand type.severity = type.severity := expand_plain (newline_notMem_severity type)
  have hsocket : (expand (type.severity ++ expand text)).length =
      type.severity.length + size text := by
    rw [expand_append, List.length_append, hseverity, expand_expand_length]
  have hlength := expand_length text
  constructor
  · intro h
    have hroom := h.socket
    rw [hsocket] at hroom
    exact hroom
  · intro h
    refine ⟨?_,?_,?_⟩
    · rw [size] at h
      omega
    · rw [List.length_append, hlength]
      rw [size] at h
      omega
    · rw [hsocket]
      exact h

theorem size_decimal (n : BitVec 32) : size (decimal n) = (decimal n).length := by
  refine size_plain fun hin => ?_
  have hdigit : ∀ k, '\n' ∉ Nat.toDigits 10 k := fun k hk =>
    absurd (Nat.isDigit_of_mem_toDigits (by decide) (by decide) hk) (by decide)
  rw [decimal, decimalText_one, List.mem_append] at hin
  refine hin.elim (fun hin => ?_) (hdigit _)
  split_ifs at hin
  · exact absurd (List.mem_singleton.mp hin) (by decide)
  · exact absurd hin List.not_mem_nil

theorem decimal_length_le (n : BitVec 32) : (decimal n).length ≤ 11 := by
  have hlow := BitVec.le_toInt n
  have hhigh := BitVec.toInt_lt (x := n)
  have hdigits : (Nat.toDigits 10 n.toInt.natAbs).length ≤ 10 :=
    (Nat.length_toDigits_le_iff (by decide) (by decide)).mpr (by omega)
  rw [decimal, decimalText_one, List.length_append]
  split_ifs <;> simp only [List.length_singleton, List.length_nil] <;> omega

def Piece.most : Piece → ℕ
  | .lit text => size text.toList
  | .str text => size text
  | .num _ => 11

def Reply.most (r : Reply) : ℕ := r.type.severity.length + (r.format.map Piece.most).sum

def Reply.Fits (r : Reply) : Prop := Printing.Fits r.type r.text

theorem size_format (format : List Piece) :
    size (format.flatMap Piece.print) = (format.map fun p => size p.print).sum := by
  induction format with
  | nil => rfl
  | cons p format ih => rw [List.flatMap_cons, size_append, ih, List.map_cons, List.sum_cons]

theorem Reply.fits_iff_sum (r : Reply) :
    r.Fits ↔ r.type.severity.length + (r.format.map fun p => size p.print).sum < maxMessagesSize := by
  rw [Reply.Fits, fits_iff_size, Reply.text, size_format]

theorem Piece.size_le (p : Piece) : size p.print ≤ p.most := by
  cases p with
  | lit text => exact le_rfl
  | str text => exact le_rfl
  | num n =>
    rw [Piece.print, size_decimal]
    exact decimal_length_le n

/-- A reply with numbers only fits when it does with the longest ones. -/
theorem Reply.fits_of_most {r : Reply} (h : r.most < maxMessagesSize) : r.Fits := by
  rw [Reply.fits_iff_sum]
  have hsum : (r.format.map fun p => size p.print).sum ≤ (r.format.map Piece.most).sum :=
    List.sum_le_sum fun p _ => p.size_le
  rw [Reply.most] at h
  omega

/-! ## What is asked -/

/-- The room for the replies of a command: that for what they repeat of the line
and of the environment. -/
def Command.Room (env : Env) (line : Text) : Command → Prop
  | .print => ∀ rest ∈ getParamOffset line 1, size rest < 509
  | .help | .question | .version | .reset | .recalibrate | .stop | .ejectdisk
  | .setpreviewimagesettings | .reloadcfg | .system => True
  | .dump => given 9 line ∨ size line < 472
  | .headstep | .movehead | .sound | .ledsrc | .fe_writeprotect | .fe_motsrc | .fe_selsrc
  | .fe_pin02mode | .fe_pin34mode => given 2 line ∨ size line < 472
  | .dump_time | .index_to_dump => given 1 line ∨ size line < 472
  | .set_pin_dir =>
    if given 3 line then size (param line 2) + (decimal (arg line 3)).length < 487
    else size line < 472
  | .setio => if given 1 line then size (param line 1) < 497 else size line < 472
  | .cleario => if given 1 line then size (param line 1) < 495 else size line < 472
  | .getio =>
    if given 1 line then
      if 0 ≤ (env.getio (param line 1)).toInt then
        size (param line 1) + (decimal (env.getio (param line 1))).length < 492
      else size (param line 1) < 475
    else size line < 472
  | .setpreviewimagedecoders => size line < 478
  | .set =>
    if given 2 line then size (param line 1) + size (param line 2) < 496 else size line < 472
  | .get =>
    if given 1 line then
      size (param line 1) +
        size ((env.hxcfe_getEnvVar (param line 1)).getD "(null)".toList) < 500
    else ∀ v ∈ env.hxcfe_getEnvVarIndex, size v.1 + size v.2 < 500

def Room (env : Env) (line : Text) : Prop :=
  extractCmd line = [] ∨
    match command line with
    | some c => c.Room env line
    | none => size line < 479

/-! ## Each command -/

def AllFit (replies : List Reply) : Prop := ∀ r ∈ replies, r.Fits

theorem allFit_nil : AllFit [] := fun r hr => by cases hr

theorem allFit_singleton (r : Reply) : AllFit [r] ↔ r.Fits := List.forall_mem_singleton

theorem allFit_cons (r : Reply) (rs : List Reply) : AllFit (r::rs) ↔ r.Fits ∧ AllFit rs :=
  List.forall_mem_cons

/-- The longest reply is counted, whatever the numbers are. -/
theorem Reply.fits_short {r : Reply} (h : Nat.ble (r.most+1) maxMessagesSize = true) : r.Fits :=
  Reply.fits_of_most (Nat.le_of_ble_eq_true h)

theorem allFit_short {r : Reply} (h : Nat.ble (r.most+1) maxMessagesSize = true) : AllFit [r] :=
  (allFit_singleton r).mpr (Reply.fits_short h)

section Commands
variable (env : Env) (line : Text)

theorem badParameters_fit : AllFit (badParameters line) ↔ size line < 472 := by
  rw [badParameters, allFit_singleton, Reply.fits_iff_sum]
  show 8 + (29 + (size line + (3 + 0))) < 512 ↔ _
  omega

theorem maxStepWarning_fit (steps : BitVec 32) : AllFit (maxStepWarning steps) := allFit_short rfl

theorem busError_fit : AllFit busError := allFit_short rfl

/-- A command whose replies fit when its parameters are there. -/
theorem given_fit {n : ℕ} {replies : List Reply} (h : AllFit replies) :
    AllFit (if given n line then replies else badParameters line) ↔
      given n line ∨ size line < 472 := by
  by_cases hgiven : given n line
  · rw [if_pos hgiven]
    exact iff_of_true h (Or.inl hgiven)
  · rw [if_neg hgiven, badParameters_fit, or_iff_right hgiven]

theorem given_fit_iff {n : ℕ} {replies : List Reply} {p : Prop} (h : AllFit replies ↔ p) :
    AllFit (if given n line then replies else badParameters line) ↔
      if given n line then p else size line < 472 := by
  split_ifs
  · exact h
  · exact badParameters_fit line

theorem numbers_fit (before between : String) (m n : BitVec 32)
    (h : size before.toList + size between.toList < 400) :
    AllFit (numbers line before between m n) ↔ given 2 line ∨ size line < 472 := by
  refine given_fit line ((allFit_singleton _).mpr (Reply.fits_of_most ?_))
  show 5 + (size before.toList + (11 + (size between.toList + (11 + (3 + 0))))) < 512
  omega

theorem cmdDump_fit : AllFit (cmdDump env line) ↔ given 9 line ∨ size line < 472 := by
  refine given_fit line ?_
  split_ifs
  · exact allFit_short rfl
  · exact allFit_nil
  · exact allFit_short rfl

theorem cmdPrint_fit : AllFit (cmdPrint line) ↔ ∀ rest ∈ getParamOffset line 1, size rest < 509 := by
  unfold cmdPrint
  cases getParamOffset line 1 with
  | none => exact iff_of_true allFit_nil fun rest hrest => by cases hrest
  | some rest =>
    rw [allFit_singleton, Reply.fits_iff_sum]
    simp only [Option.mem_def, Option.some.injEq, forall_eq']
    show 0 + (size rest + (3 + 0)) < 512 ↔ _
    omega

theorem variableReply_fits (var value : Text) :
    (variableReply var value).Fits ↔ size var + size value < 500 := by
  rw [variableReply, Reply.fits_iff_sum]
  show 5 + (size var + (4 + (size value + (3 + 0)))) < 512 ↔ _
  omega

theorem cmdGetEnv_fit : AllFit (cmdGetEnv env line) ↔ Command.Room env line .get := by
  simp only [cmdGetEnv, Command.Room]
  split_ifs
  · rw [allFit_singleton, variableReply_fits]
  · rw [AllFit, List.forall_mem_map]
    exact forall₂_congr fun v _ => variableReply_fits v.1 v.2

theorem cmdSetEnv_fit : AllFit (cmdSetEnv line) ↔ Command.Room env line .set := by
  refine given_fit_iff line ?_
  rw [allFit_singleton, Reply.fits_iff_sum]
  show 5 + (4 + (size (param line 1) + (4 + (size (param line 2) + (3 + 0))))) < 512 ↔ _
  omega

theorem cmdSetPinMode_fit : AllFit (cmdSetPinMode line) ↔ Command.Room env line .set_pin_dir := by
  refine given_fit_iff line ?_
  have hnumber := size_decimal (arg line 3)
  rw [allFit_singleton, Reply.fits_iff_sum]
  show 5 + (4 + (size (param line 2) + (13 + (size (decimal (arg line 3)) + (3 + 0))))) < 512 ↔ _
  omega

theorem cmdSetPin_fit : AllFit (cmdSetPin line) ↔ Command.Room env line .setio := by
  refine given_fit_iff line ?_
  rw [allFit_singleton, Reply.fits_iff_sum]
  show 5 + (7 + (size (param line 1) + (3 + 0))) < 512 ↔ _
  omega

theorem cmdClearPin_fit : AllFit (cmdClearPin line) ↔ Command.Room env line .cleario := by
  refine given_fit_iff line ?_
  rw [allFit_singleton, Reply.fits_iff_sum]
  show 5 + (9 + (size (param line 1) + (3 + 0))) < 512 ↔ _
  omega

theorem cmdGetPin_fit : AllFit (cmdGetPin env line) ↔ Command.Room env line .getio := by
  refine given_fit_iff line ?_
  have hnumber := size_decimal (env.getio (param line 1))
  dsimp only
  split_ifs
  · rw [allFit_singleton, Reply.fits_iff_sum]
    show 5 + (3 + (size (param line 1) + (9 +
      (size (decimal (env.getio (param line 1))) + (3 + 0))))) < 512 ↔ _
    omega
  · rw [allFit_singleton, Reply.fits_iff_sum]
    show 8 + (17 + (size (param line 1) + (12 + 0))) < 512 ↔ _
    omega

theorem cmdSetImagesDecoders_fit : AllFit (cmdSetImagesDecoders line) ↔ size line < 478 := by
  rw [cmdSetImagesDecoders, allFit_singleton, Reply.fits_iff_sum]
  show 5 + (26 + (size line + (3 + 0))) < 512 ↔ _
  omega

theorem move_fit {busy beyond : Prop} [Decidable busy] [Decidable beyond] {r : Reply}
    {steps : BitVec 32} (h : r.Fits) :
    AllFit (if busy then busError else r :: if beyond then maxStepWarning steps else []) := by
  split_ifs
  · exact busError_fit
  · exact (allFit_cons _ _).mpr ⟨h,maxStepWarning_fit _⟩
  · exact (allFit_cons _ _).mpr ⟨h,allFit_nil⟩

theorem cmdHeadstep_fit : AllFit (cmdHeadstep env line) ↔ given 2 line ∨ size line < 472 :=
  given_fit line (move_fit (Reply.fits_short rfl))

theorem cmdMovehead_fit : AllFit (cmdMovehead env line) ↔ given 2 line ∨ size line < 472 :=
  given_fit line (move_fit (Reply.fits_short rfl))

theorem cmdRecalibrate_fit : AllFit (cmdRecalibrate env line) := by
  unfold cmdRecalibrate
  dsimp only
  split_ifs
  · exact allFit_short rfl
  · exact allFit_nil
  · exact allFit_nil

theorem cmdEjectdisk_fit : AllFit (cmdEjectdisk line) := by
  unfold cmdEjectdisk
  split_ifs
  · exact allFit_short rfl
  · exact allFit_nil

theorem cmdReloadConfig_fit : AllFit (cmdReloadConfig env) := by
  unfold cmdReloadConfig
  split_ifs
  · exact allFit_short rfl
  · exact allFit_short rfl

theorem cmdVersion_fit : AllFit (cmdVersion env) := by
  obtain ⟨hlength, hplain⟩ := env.buildtime.property
  rw [cmdVersion, allFit_singleton, Reply.fits_iff_sum]
  show 5 + (23 + (7 + (41 + (size env.buildtime + (3 + 0))))) < 512
  rw [size_plain hplain, hlength]
  decide

theorem cmdHelp_fit : AllFit cmdHelp := by
  refine (allFit_cons _ _).mpr ⟨Reply.fits_short rfl,?_⟩
  rw [AllFit, List.forall_mem_map]
  intro c _
  cases c <;> exact Reply.fits_short rfl

/-- Of each command the replies fit exactly when there is room for what they repeat. -/
theorem func_fit_iff (c : Command) : AllFit (c.func env line) ↔ c.Room env line := by
  cases c with
  | print => exact cmdPrint_fit line
  | help => exact iff_of_true cmdHelp_fit trivial
  | question => exact iff_of_true cmdHelp_fit trivial
  | version => exact iff_of_true (cmdVersion_fit env) trivial
  | set_pin_dir => exact cmdSetPinMode_fit env line
  | headstep => exact cmdHeadstep_fit env line
  | dump_time => exact given_fit line (allFit_short rfl)
  | index_to_dump => exact given_fit line (allFit_short rfl)
  | reset => exact iff_of_true (allFit_short rfl) trivial
  | recalibrate => exact iff_of_true (cmdRecalibrate_fit env line) trivial
  | dump => exact cmdDump_fit env line
  | stop =>
    exact iff_of_true ((allFit_cons _ _).mpr ⟨Reply.fits_short rfl,allFit_short rfl⟩) trivial
  | movehead => exact cmdMovehead_fit env line
  | ejectdisk => exact iff_of_true (cmdEjectdisk_fit line) trivial
  | setio => exact cmdSetPin_fit env line
  | cleario => exact cmdClearPin_fit env line
  | getio => exact cmdGetPin_fit env line
  | setpreviewimagesettings => exact iff_of_true (allFit_short rfl) trivial
  | setpreviewimagedecoders => exact cmdSetImagesDecoders_fit line
  | set => exact cmdSetEnv_fit env line
  | get => exact cmdGetEnv_fit env line
  | reloadcfg => exact iff_of_true (cmdReloadConfig_fit env) trivial
  | ledsrc => exact numbers_fit line _ _ _ _ (by decide)
  | sound => exact given_fit line allFit_nil
  | system => exact iff_of_true (allFit_short rfl) trivial
  | fe_writeprotect => exact numbers_fit line _ _ _ _ (by decide)
  | fe_motsrc => exact numbers_fit line _ _ _ _ (by decide)
  | fe_selsrc => exact numbers_fit line _ _ _ _ (by decide)
  | fe_pin02mode => exact numbers_fit line _ _ _ _ (by decide)
  | fe_pin34mode => exact numbers_fit line _ _ _ _ (by decide)

theorem unknown_fit {line : Text} (hne : extractCmd line ≠ []) (hnone : command line = none) :
    AllFit (executeLine env line) ↔ size line < 479 := by
  rw [executeLine, if_neg hne, hnone]
  dsimp only
  rw [allFit_singleton, Reply.fits_iff_sum]
  show 8 + (22 + (size line + (3 + 0))) < 512 ↔ _
  omega

/-- The replies to a line fit exactly when there is room for what they repeat. -/
theorem replies_fit_iff : (∀ r ∈ executeLine env line, r.Fits) ↔ Room env line := by
  unfold Room
  by_cases hblank : extractCmd line = []
  · rw [executeLine, if_pos hblank]
    exact iff_of_true allFit_nil (Or.inl hblank)
  · rw [or_iff_right hblank]
    cases hcommand : command line with
    | some c =>
      rw [executeLine, if_neg hblank, hcommand]
      exact func_fit_iff env line c
    | none => exact unknown_fit env hblank hcommand

end Commands

/-! ## Lines of the queue -/

def longLine : Text := List.replicate 511 'a'

theorem command_longLine : extractCmd longLine = longLine ∧ command longLine = none := by
  have hextract : extractCmd longLine = longLine := by
    have hspace : getNextWord longLine = longLine := rfl
    have hword : ∀ c ∈ longLine, (!isEndLine c && !isSpace c) = true := fun c hc => by
      rw [List.eq_of_mem_replicate hc]
      decide
    rw [extractCmd, hspace, List.takeWhile_eq_self_iff.mpr hword]
    exact List.take_of_length_le (by rw [longLine, List.length_replicate]; decide)
  refine ⟨hextract,List.find?_eq_none.mpr fun c _ hname => ?_⟩
  rw [decide_eq_true_eq, hextract] at hname
  have hlength := congrArg List.length hname
  rw [longLine, List.length_replicate] at hlength
  cases c <;> exact absurd hlength (by decide)

/-- A reply to a line of the queue overruns the arrays. -/
theorem reply_overruns : ∃ line : Text, line.length < maxMessagesSize ∧ nul ∉ line ∧ '\n' ∉ line ∧
    ∀ env, ¬∀ r ∈ executeLine env line, r.Fits := by
  have hplain : '\n' ∉ longLine := fun h => absurd (List.eq_of_mem_replicate h) (by decide)
  have hnul : nul ∉ longLine := fun h => absurd (List.eq_of_mem_replicate h) (by decide)
  have hlength : longLine.length = 511 := List.length_replicate
  refine ⟨longLine,by rw [hlength]; decide,hnul,hplain,fun env h => ?_⟩
  obtain ⟨hextract, hnone⟩ := command_longLine
  have hne : extractCmd longLine ≠ [] := by
    rw [hextract]
    exact List.ne_nil_of_length_eq_add_one hlength
  have hroom := (unknown_fit env hne hnone).mp h
  rw [size_plain hplain, hlength] at hroom
  omega

end Pauline.Replies
