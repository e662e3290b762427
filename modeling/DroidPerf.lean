import DroidPerf.IntervalSetSound
import DroidPerf.SplayDeleteSound
import DroidPerf.RangeSound
import DroidPerf.CodeCacheSound
import DroidPerf.CodeCacheLifetimeSound
import DroidPerf.CodeCacheUnloadSound
import DroidPerf.UncompiledSound
import DroidPerf.LineTablesSound
import DroidPerf.PerfReadSound
import DroidPerf.PerfDrainSound
import DroidPerf.PerfProgressSound
import DroidPerf.PerfSetupSound
import DroidPerf.SampleGuardSound
import DroidPerf.ThreadRecordSound
import DroidPerf.NewContextSound
import DroidPerf.NewContextInvSound
import DroidPerf.AttachSound
import DroidPerf.MethodFileSound
import DroidPerf.LineSizeSound
import DroidPerf.PrintedSound
import DroidPerf.DocumentsSound
import DroidPerf.LeavesSound
import DroidPerf.AllocSitesSound
import DroidPerf.LineScopeSound
import DroidPerf.MethodRoundTripSound
import DroidPerf.ContextIdsSound
import DroidPerf.TableRunsSound
import DroidPerf.EventListSound
import DroidPerf.PerfSetupFailSound
import DroidPerf.MetricsSound
import DroidPerf.ArgumentSound
import DroidPerf.ClassNamesSound
import DroidPerf.NamedOutputSound
import DroidPerf.ThreadEndSound
import DroidPerf.BlackListSound
import DroidPerf.MethodXmlSound
import DroidPerf.BufferedOutputSound
import DroidPerf.CodeCacheCallsSound
import DroidPerf.ProfilesSound
import DroidPerf.SessionProfilesSound
