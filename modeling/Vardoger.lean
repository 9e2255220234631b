import Vardoger.Android.Activity
import Vardoger.Android.AllocFailure
import Vardoger.Android.Append
import Vardoger.Android.CStrings
import Vardoger.Android.Clocks
import Vardoger.Android.Creation
import Vardoger.Android.Descriptors
import Vardoger.Android.InlineThreads
import Vardoger.Android.Isolation
import Vardoger.Android.Mkstemp
import Vardoger.Android.OneTime
import Vardoger.Android.PhdrIteration
import Vardoger.Android.ThreadData
import Vardoger.Android.ThreadExit
import Vardoger.Android.WriteObserver
import Vardoger.Art.ClassLinkerScan
import Vardoger.Dex.BranchTargets
import Vardoger.Dex.Branches
import Vardoger.Dex.CodeItem
import Vardoger.Dex.DalvikCodec
import Vardoger.Dex.Fitting
import Vardoger.Dex.IntSemantics
import Vardoger.Dex.OpFamily
import Vardoger.Dex.Sha1
import Vardoger.Dex.Signatures
import Vardoger.Dex.UlebReaders
import Vardoger.Dex.Walkers
import Vardoger.Elf.Aps2
import Vardoger.Elf.Rejection
import Vardoger.Engine.Bands
import Vardoger.Engine.Mutex
import Vardoger.Engine.Protection
import Vardoger.Engine.Trampoline
import Vardoger.Extract.Rc4
import Vardoger.Extract.Strings
import Vardoger.Gdb.Framing
import Vardoger.Gdb.RegisterPackets
import Vardoger.Gdb.TargetDescription
import Vardoger.Jni.Arrays
import Vardoger.Jni.ClassNames
import Vardoger.Jni.GuestCall
import Vardoger.Jni.Lifecycle
import Vardoger.Jni.MemberIds
import Vardoger.Jni.NativeInvoke
import Vardoger.Jni.Natives
import Vardoger.Jni.Regions
